import Bracketry.Proofs.Expr.Acceptance
import Bracketry.Proofs.Scope.Globals

/-
  This file shows of what types expressions can be.

  A type is taken from a variable, a member or a function,
  or it is made for a literal.  So if the lengths of all of
  those satisfy a condition, the lengths of the type do.
  Only a call can have type void, and the checks let such a
  call stand nowhere but as a statement.

  Main declarations:
    * `Scope.Measured`
    * `Expr.Read.formed`
    * `Expr.Read.solid`
-/

namespace Bracketry

variable {L : Nat → Prop} {σ : Scope}

namespace Ty

theorem array_ne_void
    (n : Nat)
    (t : Ty) :
    array n t ≠ .void := by
  intro hEq
  cases hEq

variable {g : Globals} {L L' : Nat → Prop} {a b t : Ty}

namespace Formed

theorem of_isNumeric
    (hNumeric : t.IsNumeric) :
    t.Formed g L := by
  cases t with
  | primitive kind => exact .primitive kind
  | _ => exact absurd hNumeric id

/- What is no array has no lengths. -/
theorem of_not_isArray
    (hFormed : t.Formed g L')
    (hScalar : ¬ t.IsArray) :
    t.Formed g L := by
  cases hFormed with
  | primitive kind => exact .primitive kind
  | record hKnown => exact .record hKnown
  | array _ _ _ => exact absurd trivial hScalar

theorem element
    {n : Nat}
    (hFormed : (Ty.array n t).Formed g L) :
    L n ∧ t ≠ .void ∧ t.Formed g L := by
  cases hFormed with
  | array hLength hVoid hElement =>
      exact ⟨hLength, hVoid, hElement⟩

/- The common type has the lengths of the first. -/
theorem unify
    (hLeft : a.Formed g L)
    (hSolid : a ≠ .void)
    (hUnify : a.unify b = some t) :
    t.Formed g L ∧ t ≠ .void := by
  fun_induction Ty.unify a b generalizing t with
  | case1 m a b ih =>
      rcases Option.map_eq_some_iff.mp hUnify with
        ⟨u, hInner, rfl⟩
      rcases hLeft.element with ⟨hLength, hVoid, hElement⟩
      rcases ih hElement hVoid hInner with
        ⟨hFormed, hSolid'⟩
      exact ⟨.array hLength hSolid' hFormed,
        array_ne_void _ u⟩
  | case2 => cases hUnify
  | case3 a b _ u hPromote =>
      cases hUnify
      have hNumeric := (promote_eq_some hPromote).2.2
      exact ⟨of_isNumeric hNumeric,
        ne_void_of_isNumeric hNumeric⟩
  | case4 =>
      cases hUnify
      exact ⟨hLeft, hSolid⟩
  | case5 => cases hUnify

/- A declared type takes its lengths from a value. -/
theorem inferFrom
    (hDeclared : a.Formed g L')
    (hSolid : a ≠ .void)
    (hValue : b.Formed g L)
    (hInfer : a.inferFrom b = some t) :
    t.Formed g L ∧ t ≠ .void := by
  fun_induction Ty.inferFrom a b generalizing t with
  | case1 m declared n literal _ ih =>
      rcases Option.map_eq_some_iff.mp hInfer with
        ⟨u, hInner, rfl⟩
      rcases hDeclared.element with ⟨-, hVoid, hElement⟩
      rcases hValue.element with ⟨hLength, -, hElement'⟩
      rcases ih hElement hVoid hElement' hInner with
        ⟨hFormed, hSolid'⟩
      exact ⟨.array hLength hSolid' hFormed,
        array_ne_void _ u⟩
  | case5 declared literal _ hScalar =>
      cases hInfer
      exact ⟨hDeclared.of_not_isArray (not_isArray hScalar),
        hSolid⟩
  | _ => cases hInfer

/- A declared type agrees in the lengths of a value. -/
theorem agree
    {value : Expr}
    (hDeclared : a.Formed g L')
    (hSolid : a ≠ .void)
    (hValue : value.ty.Formed g L)
    (hAgree : value.agree a = .ok t) :
    t.Formed g L ∧ t ≠ .void := by
  rcases Expr.agree_eq_ok hAgree with
    ⟨hInfer, -⟩ | ⟨hConverts, rfl⟩
  · exact hDeclared.inferFrom hSolid hValue hInfer
  · refine ⟨?_, hSolid⟩
    rcases hConverts with hEq | hNumeric
    · rw [← hEq]
      exact hValue
    · exact of_isNumeric hNumeric.2

end Formed

end Ty

namespace Expr

variable {es : List Expr}

mutual

/- The numbers of elements in array literals. -/
def lengths : Expr → List Nat
| .array elements _ _ =>
    elements.length :: allLengths elements
| _ => []

/- The lengths in several literals. -/
def allLengths : List Expr → List Nat
| [] => []
| e :: rest => e.lengths ++ allLengths rest

end

theorem mem_allLengths
    {n : Nat} :
    n ∈ allLengths es ↔ ∃ e ∈ es, n ∈ e.lengths := by
  induction es with
  | nil => simp [allLengths]
  | cons e rest ih => simp [allLengths, ih]

/- No literal is of type void. -/
theorem IsLiteral.ne_void
    {e : Expr}
    (hLiteral : e.IsLiteral)
    (hTyped : e.WellTyped) :
    e.ty ≠ .void := by
  cases e with
  | int value t line =>
      rw [WellTyped] at hTyped
      rcases hTyped with ⟨rfl, -⟩ | ⟨rfl, -⟩ <;> exact nofun
  | float value line => exact nofun
  | boolean value line => exact nofun
  | array elements t line =>
      rw [WellTyped] at hTyped
      rcases hTyped with ⟨-, u, rfl, -⟩
      exact nofun
  | _ => exact absurd hLiteral id

/- The common type has the lengths of the first. -/
theorem formed_of_commonType
    {g : Globals}
    {t u : Ty}
    (hCommon : commonType t es = .ok u)
    (hFormed : t.Formed g L)
    (hSolid : t ≠ .void) :
    u.Formed g L ∧ u ≠ .void := by
  induction es generalizing t with
  | nil =>
      cases hCommon
      exact ⟨hFormed, hSolid⟩
  | cons e rest ih =>
      unfold commonType at hCommon
      split at hCommon
      · rename_i v hUnify
        rcases hFormed.unify hSolid hUnify with
          ⟨hNext, hSolid'⟩
        exact ih hCommon hNext hSolid'
      · cases hCommon

end Expr

/- Lengths in members and results satisfy `L`. -/
structure Globals.Measured
    (L : Nat → Prop)
    (g : Globals) : Prop where
  members : ∀ r ∈ g.records, ∀ m ∈ r.members, m.2.Formed g L
  returns : ∀ p ∈ g.prototypes, p.returnType.Formed g L

/- So do those in variables that are in sight. -/
structure Scope.Measured
    (L : Nat → Prop)
    (σ : Scope) : Prop where
  globals : σ.globals.Measured L
  seen :
    ∀ name x, σ.lookup name = some (.var x) →
      x.ty.Formed σ.globals L

/- A part of a variable has a type that is formed. -/
theorem Place.Read.formed
    {σ : Scope}
    {L : Nat → Prop}
    {place : Place}
    (hRead : place.Read σ)
    (hMeasured : σ.Measured L) :
    place.ty.Formed σ.globals L := by
  cases hRead with
  | var hLookup => exact hMeasured.seen _ _ hLookup
  | element hParent _ _ hArray =>
      have hWhole := hParent.formed hMeasured
      rw [hArray] at hWhole
      exact hWhole.element.2.2
  | member hParent hRecord hFind =>
      have hWhole := hParent.formed hMeasured
      rw [hRecord] at hWhole
      cases hWhole with
      | record hKnown =>
          exact hMeasured.globals.members _ hKnown _
            (List.mem_of_getElem?
              (Expr.getElem?_of_findMember? hFind))

/- An expression has a type that is formed. -/
theorem Expr.Read.formed
    {σ : Scope}
    {L : Nat → Prop}
    {e : Expr}
    (hRead : e.Read σ)
    (hMeasured : σ.Measured L)
    (hLengths : ∀ n ∈ e.lengths, L n) :
    e.ty.Formed σ.globals L := by
  cases hRead with
  | integer hOk =>
      rcases ofInteger_eq_ok hOk with ⟨rfl, -⟩
      exact .primitive .int
  | float value line => exact .primitive .float
  | boolean value line => exact .primitive .bool
  | string value line =>
      unfold ofString at hLengths ⊢
      rw [lengths, List.forall_mem_cons] at hLengths
      exact .array hLengths.1 nofun (.primitive .char)
  | @elements first rest line e hElements hConstant hOk =>
      rcases Step.except_bind_eq_ok.mp hOk with
        ⟨t, hCommon, hOk⟩
      cases hOk
      rw [lengths, List.forall_mem_cons] at hLengths
      have hFirst := hElements first List.mem_cons_self
      have hAccepted := hFirst.accepted
      have hSolid : first.ty ≠ .void :=
        (hAccepted.written.isLiteral
          (hConstant first List.mem_cons_self)).ne_void
            hAccepted.typed
      have hFormed : first.ty.Formed σ.globals L :=
        hFirst.formed hMeasured fun n hMem =>
          hLengths.2 n
            (mem_allLengths.mpr
              ⟨first, List.mem_cons_self, hMem⟩)
      rcases formed_of_commonType hCommon hFormed
        hSolid with
        ⟨hCommonFormed, hCommonSolid⟩
      exact .array hLengths.1 hCommonSolid hCommonFormed
  | read hPlace line => exact hPlace.formed hMeasured
  | call hKnown _ hOk =>
      rcases ofCall_eq_ok hOk with ⟨-, -, rfl⟩
      exact hMeasured.globals.returns _ hKnown
  | negation hOperand hOk =>
      rcases ofNegation_eq_ok hOk with
        ⟨t, line', rfl⟩ | ⟨-, hNum, rfl⟩
      · rcases hOperand.accepted.typed with ⟨-, rfl, hNum⟩
        exact .of_isNumeric hNum
      · exact .of_isNumeric hNum
  | inversion hOperand hOk =>
      rcases ofInversion_eq_ok hOk with
        ⟨line', rfl⟩ | ⟨-, -, rfl⟩
      · rw [hOperand.accepted.typed.2]
        exact .primitive .bool
      · exact .primitive .bool
  | arithmetic _ _ hOk =>
      rcases joinArithmetic_eq_ok hOk with
        ⟨t, hPromote, rfl⟩
      exact .of_isNumeric (Ty.promote_eq_some hPromote).2.2
  | compare _ _ hOk =>
      rcases joinCompare_eq_ok hOk with ⟨rfl, -⟩
      exact .primitive .bool
  | and _ _ hOk =>
      rcases conditions_of_join hOk with ⟨-, -, rfl⟩
      exact .primitive .bool
  | or _ _ hOk =>
      rcases conditions_of_join hOk with ⟨-, -, rfl⟩
      exact .primitive .bool

mutual

/- No part of a place is of type void. -/
def Place.Solid : Place → Prop
| .var x => x.ty ≠ .void
| .element parent index t =>
    parent.Solid ∧ index.Solid ∧ t ≠ .void
| .member parent _ _ t => parent.Solid ∧ t ≠ .void

/- Nothing of type void is read, and no argument is void. -/
def Expr.Solid : Expr → Prop
| .zero t _ => t ≠ .void
| .array elements _ _ =>
    Expr.AllSolid elements ∧ ∀ e ∈ elements, e.ty ≠ .void
| .read place _ => place.Solid
| .arithmetic _ left right _ _ => left.Solid ∧ right.Solid
| .negate operand _ _ => operand.Solid
| .call _ _ args params _ _ =>
    Expr.AllSolid args ∧ ∀ t ∈ params, t ≠ .void
| .compare _ left right _ => left.Solid ∧ right.Solid
| .and left right _ => left.Solid ∧ right.Solid
| .or left right _ => left.Solid ∧ right.Solid
| .not operand _ => operand.Solid
| _ => True

/- The same of several expressions. -/
def Expr.AllSolid : List Expr → Prop
| [] => True
| e :: rest => e.Solid ∧ Expr.AllSolid rest

end

theorem Place.Solid.ty_ne_void
    {place : Place}
    (hSolid : place.Solid) :
    place.ty ≠ .void := by
  cases place with
  | var x =>
      rw [Place.Solid] at hSolid
      exact hSolid
  | element parent index t =>
      rw [Place.Solid] at hSolid
      exact hSolid.2.2
  | member parent position name t =>
      rw [Place.Solid] at hSolid
      exact hSolid.2

namespace Expr

theorem allSolid_iff
    {es : List Expr} :
    AllSolid es ↔ ∀ e ∈ es, e.Solid := by
  induction es with
  | nil => simp [AllSolid]
  | cons e rest ih => simp [AllSolid, ih]

theorem solid_ofString
    (value : String)
    (line : Nat) :
    (ofString value line).Solid := by
  have hBytes :
      ∀ e ∈ value.toUTF8.toList.map
          (fun b => Expr.int (Int.bmod b.toNat 256)
            .char line),
        e.Solid ∧ e.ty ≠ .void := by
    intro e hMem
    rcases List.mem_map.mp hMem with ⟨b, -, rfl⟩
    exact ⟨trivial, nofun⟩
  unfold ofString
  rw [Solid]
  exact ⟨allSolid_iff.mpr fun e hMem => (hBytes e hMem).1,
    fun e hMem => (hBytes e hMem).2⟩

theorem solid_initial
    {t : Ty}
    {line : Nat}
    {e : Expr}
    (hOk : initial t line = .ok e) :
    e.Solid := by
  unfold initial at hOk
  split at hOk <;> cases hOk
  case h_6 hVoid _ _ _ _ =>
    rw [Solid]
    exact hVoid
  all_goals trivial

end Expr

/- No member and no parameter is void. -/
structure Globals.Solid (g : Globals) : Prop where
  members : ∀ r ∈ g.records, ∀ m ∈ r.members, m.2 ≠ .void
  params : ∀ q ∈ g.prototypes, ∀ t ∈ q.paramTypes, t ≠ .void

/- No variable in sight is void either. -/
structure Scope.Solid
    (L : Nat → Prop)
    (σ : Scope) : Prop where
  globals : σ.globals.Solid
  measured : σ.Measured L
  seen : ∀ name x, σ.lookup name = some (.var x) →
    x.ty ≠ .void

theorem Scope.Solid.checked
    (hScope : σ.Solid L) :
    Expr.Checked σ Place.Solid Expr.Solid where
  var := hScope.seen _ _
  element := fun hRead hParent hIndex _ hArray => by
    have hWhole := hRead.formed hScope.measured
    rw [hArray] at hWhole
    exact ⟨hParent, hIndex, hWhole.element.2.1⟩
  member := fun hRead hParent hRecord hMember => by
    have hWhole := hRead.formed hScope.measured
    rw [hRecord] at hWhole
    cases hWhole with
    | record hKnown =>
        exact ⟨hParent, hScope.globals.members _ hKnown _
          (List.mem_of_getElem? hMember)⟩
  int := fun _ _ => trivial
  float := fun _ _ => trivial
  boolean := fun _ _ => trivial
  string := Expr.solid_ofString
  array := fun _ hReads hElements hConstant _ => by
    refine ⟨Expr.allSolid_iff.mpr hElements,
      fun e hMem => ?_⟩
    have hAccepted := (hReads e hMem).accepted
    exact (hAccepted.written.isLiteral
      (hConstant e hMem)).ne_void hAccepted.typed
  read := fun _ hPlace => hPlace
  call := fun _ hKnown hArgs _ =>
    ⟨Expr.allSolid_iff.mpr hArgs,
      hScope.globals.params _ hKnown⟩
  negate := fun _ hOperand _ => hOperand
  negated := id
  arithmetic := fun _ hLeft hRight _ => ⟨hLeft, hRight⟩
  compare := fun _ hLeft hRight _ => ⟨hLeft, hRight⟩
  and := fun _ hLeft hRight _ _ => ⟨hLeft, hRight⟩
  or := fun _ hLeft hRight _ _ => ⟨hLeft, hRight⟩
  not := fun _ hOperand _ => hOperand
  inverted := id

theorem Place.Read.solid
    {place : Place}
    (hRead : place.Read σ)
    (hScope : σ.Solid L) :
    place.Solid :=
  hRead.checked hScope.checked

/- No void is read or handed over in an expression. -/
theorem Expr.Read.solid
    {e : Expr}
    (hRead : e.Read σ)
    (hScope : σ.Solid L) :
    e.Solid :=
  hRead.checked hScope.checked

end Bracketry
