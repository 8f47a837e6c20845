import Bracketry.Expr

/-
  This file says when an expression is well typed, and to
  which types it can be converted.

  An array literal is converted element by element, so it
  fits more types than its own.  Any other expression fits
  the types that its own type converts to.
-/

namespace Bracketry

variable {t : Ty}

namespace Expr

mutual

/- Whether an expression can be converted to a type. -/
def Fits : Expr → Ty → Prop
| .array elements _ _, .array n t =>
    n = elements.length ∧ AllFit elements t
| .array _ _ _, _ => False
| e, t => e.ty.ConvertsTo t

/- Whether all elements can be converted to a type. -/
def AllFit : List Expr → Ty → Prop
| [], _ => True
| e :: rest, t => e.Fits t ∧ AllFit rest t

end

/- Whether arguments convert to their parameters. -/
def ArgumentsFit : List Expr → List Ty → Prop
| [], [] => True
| arg :: args, param :: params =>
    arg.ty.ConvertsTo param ∧ ArgumentsFit args params
| _, _ => False

theorem fits_iff
    {e : Expr}
    (hLiteral : ¬ e.IsArrayLiteral) :
    e.Fits t ↔ e.ty.ConvertsTo t := by
  cases e with
  | array elements u line => exact absurd trivial hLiteral
  | _ => rw [Fits] <;> simp

/- Exactly the expressions of type bool are conditions. -/
theorem isCondition_iff
    (e : Expr) :
    e.IsCondition ↔ e.ty = .bool := by
  constructor
  · intro hCondition
    rcases hCondition with hLogical | hBool
    · cases e with
      | boolean value line => rfl
      | compare op left right line => rfl
      | and left right line => rfl
      | or left right line => rfl
      | not operand line => rfl
      | _ => exact absurd hLogical id
    · exact hBool
  · exact Or.inr

end Expr

mutual

/- Parts are taken of arrays and records that have them. -/
def Place.WellTyped : Place → Prop
| .var _ => True
| .element parent index t =>
    parent.WellTyped ∧ index.WellTyped ∧
      index.ty.IsIntegral ∧ ∃ n, parent.ty = .array n t
| .member parent position name t =>
    parent.WellTyped ∧
      ∃ serial record members,
        parent.ty = .record serial record members ∧
          members[position]? = some (name, t)

/-
  Each node has the type that its parts give it, and
  literals are in the range of their type.
-/
def Expr.WellTyped : Expr → Prop
| .int value t _ =>
    (t = .int ∧ -2147483648 ≤ value ∧ value ≤ 2147483647) ∨
      (t = .char ∧ -128 ≤ value ∧ value ≤ 127)
| .float _ _ => True
| .boolean _ _ => True
| .zero _ _ => True
| .array elements t _ =>
    Expr.AllWellTyped elements ∧
      ∃ u, t = .array elements.length u ∧
        Expr.AllFit elements u
| .read place _ => place.WellTyped
| .arithmetic _ left right t _ =>
    left.WellTyped ∧ right.WellTyped ∧
      left.ty.promote right.ty = some t
| .negate operand t _ =>
    operand.WellTyped ∧ operand.ty = t ∧ t.IsNumeric
| .call _ _ args params _ _ =>
    Expr.AllWellTyped args ∧ Expr.ArgumentsFit args params
| .compare op left right _ =>
    left.WellTyped ∧ right.WellTyped ∧
      ((op.IsEquality ∧ left.ty = .bool ∧
        right.ty = .bool) ∨
          (left.ty.promote right.ty).isSome)
| .and left right _ =>
    left.WellTyped ∧ right.WellTyped ∧
      left.ty = .bool ∧ right.ty = .bool
| .or left right _ =>
    left.WellTyped ∧ right.WellTyped ∧
      left.ty = .bool ∧ right.ty = .bool
| .not operand _ => operand.WellTyped ∧ operand.ty = .bool

/- All of several expressions are well typed. -/
def Expr.AllWellTyped : List Expr → Prop
| [] => True
| e :: rest => e.WellTyped ∧ Expr.AllWellTyped rest

end

namespace Expr

variable {es : List Expr}

theorem allWellTyped_iff :
    AllWellTyped es ↔ ∀ e ∈ es, e.WellTyped := by
  induction es with
  | nil => simp [AllWellTyped]
  | cons e rest ih => simp [AllWellTyped, ih]

theorem allFit_iff :
    AllFit es t ↔ ∀ e ∈ es, e.Fits t := by
  induction es with
  | nil => simp [AllFit]
  | cons e rest ih => simp [AllFit, ih]

/- Arguments that fit are as many as parameters. -/
theorem convertsTo_of_argumentsFit
    {args : List Expr}
    {params : List Ty}
    (hFit : ArgumentsFit args params) :
    ∀ pair ∈ args.zip params,
      pair.1.ty.ConvertsTo pair.2 := by
  fun_induction ArgumentsFit args params with
  | case1 => simp
  | case2 arg args param params ih =>
      rw [List.zip_cons_cons]
      exact List.forall_mem_cons.mpr ⟨hFit.1, ih hFit.2⟩
  | case3 args params _ _ => exact hFit.elim

end Expr

namespace Ty

variable {t a b : Ty}

/- The numeric types are three. -/
theorem isNumeric_iff
    (t : Ty) :
    t.IsNumeric ↔ t = char ∨ t = int ∨ t = float := by
  cases t with
  | primitive p => cases p <;> simp [IsNumeric]
  | _ => simp [IsNumeric]

theorem ne_void_of_isNumeric
    (hNumeric : t.IsNumeric) :
    t ≠ .void := by
  rintro rfl
  exact hNumeric

theorem IsIntegral.isNumeric
    (hIntegral : t.IsIntegral) :
    t.IsNumeric := by
  cases t with
  | primitive p =>
      cases p with
      | char => trivial
      | int => trivial
      | _ => exact absurd hIntegral id
  | _ => exact absurd hIntegral id

/- An array is converted to itself only. -/
theorem eq_of_array_convertsTo
    {n : Nat}
    {t target : Ty}
    (hConverts : (array n t).ConvertsTo target) :
    target = array n t := by
  rcases hConverts with hEq | hNumeric
  · exact hEq.symm
  · exact absurd hNumeric.1 id

/- A promotion has numbers on both sides. -/
theorem promote_eq_some
    (hPromote : a.promote b = some t) :
    a.IsNumeric ∧ b.IsNumeric ∧ t.IsNumeric := by
  unfold promote at hPromote
  split at hPromote
  · rename_i hNumeric
    refine ⟨hNumeric.1, hNumeric.2, ?_⟩
    split at hPromote
    · cases hPromote
      trivial
    · split at hPromote <;> cases hPromote <;> trivial
  · cases hPromote

theorem convertsTo_of_numeric
    (hSource : a.IsNumeric)
    (hTarget : b.IsNumeric) :
    a.ConvertsTo b :=
  .inr ⟨hSource, hTarget⟩

theorem convertsTo_self
    (t : Ty) :
    t.ConvertsTo t :=
  .inl rfl

end Ty

/- An expression fits what its type converts to. -/
theorem Expr.fits_of_convertsTo
    {e : Expr}
    (hTyped : e.WellTyped)
    (hConverts : e.ty.ConvertsTo t) :
    e.Fits t := by
  by_cases hLiteral : e.IsArrayLiteral
  · cases e with
    | array elements u line =>
        rw [Expr.WellTyped] at hTyped
        rcases hTyped with ⟨-, w, hTy, hFit⟩
        have hEq : t = .array elements.length w := by
          apply Ty.eq_of_array_convertsTo
          rw [← hTy]
          exact hConverts
        rw [hEq, Expr.Fits]
        exact ⟨rfl, hFit⟩
    | _ => exact absurd hLiteral id
  · exact (fits_iff hLiteral).mpr hConverts

mutual

/- The variables that a place is reached by. -/
def Place.variables : Place → List Identifier
| .var x => [x]
| .element parent index _ =>
    parent.variables ++ index.variables
| .member parent _ _ _ => parent.variables

/- The variables that an expression reads. -/
def Expr.variables : Expr → List Identifier
| .array elements _ _ => Expr.allVariables elements
| .read place _ => place.variables
| .arithmetic _ left right _ _ =>
    left.variables ++ right.variables
| .negate operand _ _ => operand.variables
| .call _ _ args _ _ _ => Expr.allVariables args
| .compare _ left right _ =>
    left.variables ++ right.variables
| .and left right _ => left.variables ++ right.variables
| .or left right _ => left.variables ++ right.variables
| .not operand _ => operand.variables
| _ => []

/- The variables that several expressions read. -/
def Expr.allVariables : List Expr → List Identifier
| [] => []
| e :: rest => e.variables ++ Expr.allVariables rest

end

/- A part of a variable is reached by the variable. -/
theorem Place.root_mem_variables :
    ∀ place : Place, place.root ∈ place.variables
| .var x => by
    rw [Place.root, Place.variables]
    exact List.mem_cons_self
| .element parent index t => by
    rw [Place.root, Place.variables]
    exact List.mem_append_left _
      (Place.root_mem_variables parent)
| .member parent position name t => by
    rw [Place.root, Place.variables]
    exact Place.root_mem_variables parent

end Bracketry
