import Bracketry.Proofs.Expr.Typing
import Bracketry.Stmt.Parser

/-
  This file shows that literals fit the types which they are
  given: the common type of the elements of an array, and
  the declared type that a literal completes.

  Both types are reached from the literal's own by
  converting element by element.  A literal is converted
  this way; an array that is stored somewhere is not.
-/

namespace Bracketry

variable {a : Ty}

namespace Ty

variable {a b t : Ty}

/- Arrays of one shape, whose elements convert. -/
def ConvertsEach : Ty → Ty → Prop
| .array m a, .array n b => m = n ∧ a.ConvertsEach b
| .array _ _, _ => False
| _, .array _ _ => False
| a, b => a.ConvertsTo b

theorem ConvertsTo.trans
    {a b c : Ty}
    (hFirst : a.ConvertsTo b)
    (hSecond : b.ConvertsTo c) :
    a.ConvertsTo c := by
  rcases hFirst with hEq | hNumeric
  · rw [hEq]
    exact hSecond
  · rcases hSecond with hEq | hNumeric'
    · rw [← hEq]
      exact .inr hNumeric
    · exact .inr ⟨hNumeric.1, hNumeric'.2⟩

theorem IsNumeric.not_isArray
    (hNumeric : t.IsNumeric) :
    ¬ t.IsArray := by
  cases t with
  | array n t => exact absurd hNumeric id
  | _ => exact id

theorem ConvertsTo.not_isArray
    {a b : Ty}
    (hConverts : a.ConvertsTo b)
    (hArray : ¬ a.IsArray) :
    ¬ b.IsArray := by
  rcases hConverts with hEq | hNumeric
  · rw [← hEq]
    exact hArray
  · exact hNumeric.2.not_isArray

theorem convertsEach_iff
    (hArray : ¬ a.IsArray) :
    a.ConvertsEach b ↔ ¬ b.IsArray ∧ a.ConvertsTo b := by
  cases a with
  | array m a => exact absurd trivial hArray
  | _ =>
      cases b with
      | array n b => simp [ConvertsEach, IsArray]
      | _ => simp [ConvertsEach, IsArray]

theorem convertsEach_of_numeric
    (hSource : a.IsNumeric)
    (hTarget : b.IsNumeric) :
    a.ConvertsEach b :=
  (convertsEach_iff hSource.not_isArray).mpr
    ⟨hTarget.not_isArray, .inr ⟨hSource, hTarget⟩⟩

theorem not_isArray
    (hOther : ∀ n element, t = .array n element → False) :
    ¬ t.IsArray := by
  cases t with
  | array n element => exact (hOther n element rfl).elim
  | _ => exact id

/- Both types convert to a common type of two elements. -/
theorem convertsEach_of_unify
    (hUnify : a.unify b = some t) :
    a.ConvertsEach t ∧ b.ConvertsEach t := by
  fun_induction unify a b generalizing t with
  | case1 m a b ih =>
      rcases Option.map_eq_some_iff.mp hUnify with
        ⟨u, hInner, rfl⟩
      exact ⟨⟨rfl, (ih hInner).1⟩, ⟨rfl, (ih hInner).2⟩⟩
  | case2 m a n b hLength => cases hUnify
  | case3 a b hOther u hPromote =>
      cases hUnify
      rcases promote_eq_some hPromote with
        ⟨hLeft, hRight, hCommon⟩
      exact ⟨convertsEach_of_numeric hLeft hCommon,
        convertsEach_of_numeric hRight hCommon⟩
  | case4 a hOther hPromote =>
      cases hUnify
      have hArray : ¬ a.IsArray :=
        not_isArray fun n element hEq =>
          hOther n element n element hEq hEq
      have hSelf : a.ConvertsEach a :=
        (convertsEach_iff hArray).mpr
          ⟨hArray, convertsTo_self a⟩
      exact ⟨hSelf, hSelf⟩
  | case5 a b hOther hPromote hNe => cases hUnify

/- A literal converts to the type that it completes. -/
theorem convertsEach_of_inferFrom
    {declared literal t : Ty}
    (hInfer : declared.inferFrom literal = some t) :
    literal.ConvertsEach t := by
  fun_induction inferFrom declared
    literal generalizing t with
  | case1 m declared n literal hLength ih =>
      rcases Option.map_eq_some_iff.mp hInfer with
        ⟨u, hInner, rfl⟩
      exact ⟨rfl, ih hInner⟩
  | case2 m declared n literal hLength => cases hInfer
  | case3 => cases hInfer
  | case4 => cases hInfer
  | case5 declared literal _ hDeclared hLiteral hConverts =>
      cases hInfer
      exact (convertsEach_iff (not_isArray hLiteral)).mpr
        ⟨not_isArray hDeclared, hConverts⟩
  | case6 => cases hInfer

/- A declared type that is complete stays as it is. -/
theorem inferFrom_eq_self
    {declared literal t : Ty}
    (hSpecified : declared.IsFullySpecified)
    (hInfer : declared.inferFrom literal = some t) :
    t = declared := by
  fun_induction inferFrom declared
    literal generalizing t with
  | case1 m declared n literal hLength ih =>
      rcases Option.map_eq_some_iff.mp hInfer with
        ⟨u, hInner, rfl⟩
      have hPositive : m ≠ 0 := Nat.ne_of_gt hSpecified.1
      rw [ih hSpecified.2 hInner, hLength.resolve_left
        hPositive]
  | case5 declared literal hDeclared hLiteral hConverts =>
      cases hInfer
      rfl
  | _ => cases hInfer

end Ty

------------------------------------------------------------
-- Literals
------------------------------------------------------------

namespace Expr

variable {e : Expr}

mutual

/- Numbers, truth values, and arrays of literals. -/
def IsLiteral : Expr → Prop
| .int _ _ _ => True
| .float _ _ => True
| .boolean _ _ => True
| .array elements _ _ => AllLiteral elements
| _ => False

/- All of several expressions are literals. -/
def AllLiteral : List Expr → Prop
| [] => True
| e :: rest => e.IsLiteral ∧ AllLiteral rest

end

/-
  Expressions as they are written in a text.  The initial
  value of a type cannot be written, and elements of an
  array have to be literals.
-/
def Written : Expr → Prop
| .zero _ _ => False
| .array elements _ _ => AllLiteral elements
| .negate operand _ _ => operand.Written
| .not operand _ => operand.Written
| _ => True

theorem Written.isLiteral_of_isArrayLiteral
    (hWritten : e.Written)
    (hArray : e.IsArrayLiteral) :
    e.IsLiteral := by
  cases e with
  | array elements t line =>
      rw [Written] at hWritten
      rw [IsLiteral]
      exact hWritten
  | _ => exact absurd hArray id

/- Constants as they are written are literals. -/
theorem Written.isLiteral
    (hWritten : e.Written)
    (hConstant : e.isConstant = true) :
    e.IsLiteral := by
  cases e with
  | int value t line => trivial
  | float value line => trivial
  | boolean value line => trivial
  | array elements t line =>
      exact hWritten.isLiteral_of_isArrayLiteral trivial
  | zero t line => exact absurd hWritten id
  | _ => exact absurd hConstant Bool.false_ne_true

/- What is no array can be converted on. -/
theorem fits_of_scalar
    (hLiteral : ¬ e.IsArrayLiteral)
    (hScalar : ¬ e.ty.IsArray)
    (hFits : e.Fits a)
    (hEach : a.ConvertsEach t) :
    e.Fits t := by
  rw [fits_iff hLiteral] at hFits ⊢
  have hArray : ¬ a.IsArray := hFits.not_isArray hScalar
  exact hFits.trans
    ((Ty.convertsEach_iff hArray).mp hEach).2

mutual

/- A literal fits what a type it fits converts to. -/
theorem fits_of_convertsEach
    (e : Expr)
    {a t : Ty}
    (hLiteral : e.IsLiteral)
    (hTyped : e.WellTyped)
    (hFits : e.Fits a)
    (hEach : a.ConvertsEach t) :
    e.Fits t := by
  cases e with
  | int value u line =>
      refine fits_of_scalar id ?_ hFits hEach
      rw [WellTyped] at hTyped
      rcases hTyped with ⟨rfl, -⟩ | ⟨rfl, -⟩ <;> exact id
  | float value line =>
      exact fits_of_scalar id id hFits hEach
  | boolean value line =>
      exact fits_of_scalar id id hFits hEach
  | array elements u line =>
      rw [IsLiteral] at hLiteral
      rw [WellTyped] at hTyped
      cases a with
      | array m a =>
          cases t with
          | array n t =>
              rw [Ty.ConvertsEach] at hEach
              rw [Fits] at hFits ⊢
              exact ⟨hEach.1.symm.trans hFits.1,
                allFit_of_convertsEach elements hLiteral
                  hTyped.1 hFits.2 hEach.2⟩
          | _ => exact absurd hEach id
      | _ => exact absurd hFits id
  | _ => exact absurd hLiteral id

/- So do the elements of an array literal. -/
theorem allFit_of_convertsEach
    (es : List Expr)
    {a t : Ty}
    (hLiteral : AllLiteral es)
    (hTyped : AllWellTyped es)
    (hFits : AllFit es a)
    (hEach : a.ConvertsEach t) :
    AllFit es t := by
  cases es with
  | nil =>
      rw [AllFit]
      trivial
  | cons e rest =>
      rw [AllLiteral] at hLiteral
      rw [AllWellTyped] at hTyped
      rw [AllFit] at hFits ⊢
      exact ⟨fits_of_convertsEach e hLiteral.1 hTyped.1
        hFits.1 hEach, allFit_of_convertsEach rest
          hLiteral.2 hTyped.2 hFits.2 hEach⟩

end

/-
  The common type of elements fits them all, and fits every
  literal that the type of the first one fits.
-/
theorem fits_of_commonType
    {t u : Ty}
    {es : List Expr}
    (hCommon : commonType t es = .ok u)
    (hLiteral : AllLiteral es)
    (hTyped : AllWellTyped es) :
    (∀ e : Expr, e.IsLiteral → e.WellTyped → e.Fits t →
      e.Fits u) ∧ AllFit es u := by
  induction es generalizing t with
  | nil =>
      cases hCommon
      refine ⟨fun _ _ _ hFits => hFits, ?_⟩
      rw [AllFit]
      trivial
  | cons first rest ih =>
      rw [AllLiteral] at hLiteral
      rw [AllWellTyped] at hTyped
      rw [AllFit]
      unfold commonType at hCommon
      split at hCommon
      · rename_i v hUnify
        -- the rest may only widen the common type so far
        rcases Ty.convertsEach_of_unify hUnify with
          ⟨hLeft, hRight⟩
        rcases ih hCommon hLiteral.2 hTyped.2 with
          ⟨hOthers, hRest⟩
        have hFirst : first.Fits v :=
          fits_of_convertsEach first hLiteral.1 hTyped.1
            (fits_of_convertsTo hTyped.1
              (Ty.convertsTo_self _)) hRight
        refine ⟨?_,
          hOthers first hLiteral.1 hTyped.1 hFirst, hRest⟩
        intro e hLit hOk hFits
        exact hOthers e hLit hOk
          (fits_of_convertsEach e hLit hOk hFits hLeft)
      · cases hCommon

variable {value : Expr} {declared t : Ty}

/- The two ways in which a value agrees with a type. -/
theorem agree_eq_ok
    (hAgree : value.agree declared = .ok t) :
    (declared.inferFrom value.ty = some t ∧
        (value.IsArrayLiteral ∨ t = value.ty)) ∨
      (value.ty.ConvertsTo declared ∧ t = declared) := by
  unfold agree at hAgree
  split at hAgree
  · split at hAgree
    · rename_i u hInfer
      split at hAgree
      · rename_i hShape
        cases hAgree
        exact .inl ⟨hInfer, hShape⟩
      · cases hAgree
    · cases hAgree
  · split at hAgree
    · rename_i hConverts
      cases hAgree
      exact .inr ⟨hConverts, rfl⟩
    · cases hAgree

/- A value fits the type of the place declared for it. -/
theorem fits_of_agree
    (hTyped : value.WellTyped)
    (hWritten : value.Written)
    (hAgree : value.agree declared = .ok t) :
    value.Fits t := by
  have hSelf : value.Fits value.ty :=
    fits_of_convertsTo hTyped (Ty.convertsTo_self _)
  rcases agree_eq_ok hAgree with
    ⟨hInfer, hShape⟩ | ⟨hConverts, rfl⟩
  · rcases hShape with hArray | rfl
    · exact fits_of_convertsEach value
        (hWritten.isLiteral_of_isArrayLiteral hArray)
          hTyped hSelf
        (Ty.convertsEach_of_inferFrom hInfer)
    · exact hSelf
  · exact fits_of_convertsTo hTyped hConverts

/- A place whose type is complete keeps it. -/
theorem agree_eq_self
    (hSpecified : declared.IsFullySpecified)
    (hAgree : value.agree declared = .ok t) :
    t = declared := by
  rcases agree_eq_ok hAgree with ⟨hInfer, -⟩ | ⟨-, hEq⟩
  · exact Ty.inferFrom_eq_self hSpecified hInfer
  · exact hEq

end Expr

end Bracketry
