import Bracketry.Proofs.Expr.Literal
import Bracketry.Proofs.Expr.Reading

/-
  This file shows that every expression which is read is
  well typed.

  Each node is built by a check, and the checks are all that
  well-typedness asks for.

  Main declarations:
    * `Expr.Checked` and `Expr.Accepted`
    * `Expr.Read.checked` and `Expr.Read.accepted`
-/

namespace Bracketry

variable {σ : Scope}

namespace Expr

variable {line : Nat} {left right operand e : Expr}
variable {u : Unit} {args : List Expr}

theorem requireCondition_eq_ok
    (hOk : e.requireCondition line = .ok u) :
    e.ty = .bool := by
  unfold requireCondition at hOk
  split at hOk
  · rename_i hCondition
    exact (isCondition_iff e).mp hCondition
  · cases hOk

theorem ofInteger_eq_ok
    {value : Int}
    (hOk : ofInteger value line = .ok e) :
    e = .int value .int line ∧
      -2147483648 ≤ value ∧ value ≤ 2147483647 := by
  unfold ofInteger at hOk
  split at hOk
  · rename_i hRange
    cases hOk
    exact ⟨rfl, hRange⟩
  · cases hOk

/- Both sides of a logical operator are of type bool. -/
theorem conditions_of_join
    {left right node e : Expr}
    (hOk :
      (do
        left.requireCondition line
        right.requireCondition line
        return node) = Except.ok e) :
    left.ty = .bool ∧ right.ty = .bool ∧ node = e := by
  rcases Step.except_bind_eq_ok.mp hOk with ⟨_, hLeft, hOk⟩
  rcases Step.except_bind_eq_ok.mp hOk with ⟨_, hRight, hOk⟩
  cases hOk
  exact ⟨requireCondition_eq_ok hLeft,
    requireCondition_eq_ok hRight, rfl⟩

theorem joinCompare_eq_ok
    {op : Comparison}
    (hOk : joinCompare op left right line = .ok e) :
    e = .compare op left right line ∧
      ((op.IsEquality ∧ left.ty = .bool ∧
        right.ty = .bool) ∨
          (left.ty.promote right.ty).isSome) := by
  unfold joinCompare at hOk
  split at hOk
  · rename_i hComparable
    cases hOk
    exact ⟨rfl, hComparable⟩
  · cases hOk

theorem joinArithmetic_eq_ok
    {op : Arithmetic}
    (hOk : joinArithmetic op left right line = .ok e) :
    ∃ t, left.ty.promote right.ty = some t ∧
      e = .arithmetic op left right t line := by
  unfold joinArithmetic at hOk
  split at hOk
  · rename_i t hPromote
    cases hOk
    exact ⟨t, hPromote, rfl⟩
  · cases hOk

/- Under a minus sign stands what is left, or a number. -/
theorem ofNegation_eq_ok
    (hOk : ofNegation operand line = .ok e) :
    (∃ t line', operand = .negate e t line') ∨
      ((∀ inner t line', operand ≠ .negate inner t line') ∧
        operand.ty.IsNumeric ∧
          e = .negate operand operand.ty line) := by
  unfold ofNegation at hOk
  split at hOk
  · cases hOk
    exact .inl ⟨_, _, rfl⟩
  · rename_i hOther
    split at hOk
    · rename_i hNumeric
      cases hOk
      exact .inr ⟨hOther, hNumeric, rfl⟩
    · cases hOk

/- Under an exclamation mark, likewise. -/
theorem ofInversion_eq_ok
    (hOk : ofInversion operand line = .ok e) :
    (∃ line', operand = .not e line') ∨
      ((∀ inner line', operand ≠ .not inner line') ∧
        operand.ty = .bool ∧ e = .not operand line) := by
  unfold ofInversion at hOk
  split at hOk
  · cases hOk
    exact .inl ⟨_, rfl⟩
  · rename_i hOther
    rcases Step.except_bind_eq_ok.mp hOk with
      ⟨_, hCondition, hOk⟩
    cases hOk
    exact .inr
      ⟨hOther, requireCondition_eq_ok hCondition, rfl⟩

/- Arguments that pass the check fit. -/
theorem argumentsFit_of_check
    {params : List Ty}
    (hLength : params.length = args.length)
    (hOk : checkArguments args params = .ok u) :
    ArgumentsFit args params := by
  induction args generalizing params with
  | nil =>
      cases params with
      | nil => trivial
      | cons param params => cases hLength
  | cons arg args ih =>
      cases params with
      | nil => cases hLength
      | cons param params =>
          unfold checkArguments at hOk
          split at hOk
          · rename_i hConverts
            exact ⟨hConverts, ih (Nat.succ.inj hLength) hOk⟩
          · cases hOk

theorem ofCall_eq_ok
    {callee : Prototype}
    (hOk : ofCall callee args line = .ok e) :
    callee.paramTypes.length = args.length ∧
      ArgumentsFit args callee.paramTypes ∧
      e = .call callee.name callee.id args callee.paramTypes
        callee.returnType line := by
  unfold ofCall at hOk
  dsimp only at hOk
  split at hOk
  · cases hOk
  · rename_i hLength
    rcases Step.except_bind_eq_ok.mp hOk with
      ⟨_, hCheck, hOk⟩
    cases hOk
    have hCount := Decidable.not_not.mp hLength
    exact ⟨hCount, argumentsFit_of_check hCount hCheck, rfl⟩

/- The position of a member that is found is its own. -/
theorem getElem?_of_findMember?
    {members : List (String × Ty)}
    {name : String}
    {position : Nat}
    {t : Ty}
    (hFind : findMember? members name =
      some (position, t)) :
    members[position]? = some (name, t) := by
  induction members generalizing position with
  | nil => cases hFind
  | cons member rest ih =>
      rcases member with ⟨x, u⟩
      unfold findMember? at hFind
      split at hFind
      · rename_i hName
        cases hFind
        rw [hName]
        rfl
      · rcases Option.map_eq_some_iff.mp hFind with
          ⟨⟨position, u⟩, hRest, hEq⟩
        cases hEq
        exact ih hRest

/-
  What the checks pass on from the parts of an expression to
  the whole, and so holds of all that is read.  Two minus
  signs cancel, so it must hold below one as well.
-/
structure Checked
    (σ : Scope)
    (places : Place → Prop)
    (exprs : Expr → Prop) : Prop where
  var : ∀ {name x}, σ.lookup name = some (.var x) →
    places (.var x)
  element : ∀ {parent index n t}, parent.Read σ →
    places parent → exprs index → index.ty.IsIntegral →
      parent.ty = .array n t →
    places (.element parent index t)
  member : ∀ {parent serial record members position name t},
    parent.Read σ → places parent →
    parent.ty = .record serial record members →
    members[position]? = some (name, t) →
    places (.member parent position name t)
  int : ∀ {value} line, -2147483648 ≤ value ∧
    value ≤ 2147483647 → exprs (.int value .int line)
  float : ∀ value line, exprs (.float value line)
  boolean : ∀ value line, exprs (.boolean value line)
  string : ∀ value line, exprs (ofString value line)
  array : ∀ {first rest t} line,
    (∀ e ∈ first :: rest, e.Read σ) →
    (∀ e ∈ first :: rest, exprs e) →
    (∀ e ∈ first :: rest, e.isConstant = true) →
    commonType first.ty rest = .ok t →
    exprs (.array (first :: rest)
      (.array (rest.length + 1) t) line)
  read : ∀ {place} line, places place →
    exprs (.read place line)
  call : ∀ {callee args} line, callee ∈
    σ.globals.prototypes →
    (∀ arg ∈ args, exprs arg) →
      ArgumentsFit args callee.paramTypes →
    exprs
      (.call callee.name callee.id args callee.paramTypes
      callee.returnType line)
  negate : ∀ {operand} line, exprs operand →
    operand.ty.IsNumeric →
    exprs (.negate operand operand.ty line)
  negated : ∀ {operand t line},
    exprs (.negate operand t line) → exprs operand
  arithmetic : ∀ {op left right t} line, exprs left →
    exprs right → left.ty.promote right.ty = some t →
    exprs (.arithmetic op left right t line)
  compare : ∀ {op left right} line, exprs left →
    exprs right →
      (op.IsEquality ∧ left.ty = .bool ∧ right.ty = .bool) ∨
      (left.ty.promote right.ty).isSome →
    exprs (.compare op left right line)
  and : ∀ {left right} line, exprs left → exprs right →
    left.ty = .bool → right.ty = .bool →
      exprs (.and left right line)
  or : ∀ {left right} line, exprs left → exprs right →
    left.ty = .bool → right.ty = .bool →
      exprs (.or left right line)
  not : ∀ {operand} line, exprs operand →
    operand.ty = .bool → exprs (.not operand line)
  inverted : ∀ {operand line}, exprs (.not operand line) →
    exprs operand

end Expr

section

variable {σ : Scope} {places : Place → Prop}
variable {exprs : Expr → Prop}

mutual

theorem Place.Read.checked
    (h : Expr.Checked σ places exprs) :
    ∀ {place : Place}, place.Read σ → places place
| _, .var hLookup => h.var hLookup
| _, .element hParent hIndex hIntegral hArray =>
    h.element hParent (hParent.checked h) (hIndex.checked h)
      hIntegral hArray
| _, .member hParent hRecord hFind =>
    h.member hParent (hParent.checked h) hRecord
      (Expr.getElem?_of_findMember? hFind)

theorem Expr.Read.checked
    (h : Expr.Checked σ places exprs) :
    ∀ {e : Expr}, e.Read σ → exprs e
| _, .integer hOk => by
    rcases Expr.ofInteger_eq_ok hOk with ⟨rfl, hRange⟩
    exact h.int _ hRange
| _, .float value line => h.float value line
| _, .boolean value line => h.boolean value line
| _, .string value line => h.string value line
| _, .elements hElements hConstant hOk => by
    rcases Step.except_bind_eq_ok.mp hOk with
      ⟨t, hCommon, hOk⟩
    cases hOk
    exact h.array _ hElements
      (fun element hMem => (hElements element hMem).checked
        h) hConstant
      hCommon
| _, .read hPlace line => h.read line (hPlace.checked h)
| _, .call hKnown hArgs hOk => by
    rcases Expr.ofCall_eq_ok hOk with ⟨-, hFit, rfl⟩
    exact h.call _ hKnown
      (fun arg hMem => (hArgs arg hMem).checked h) hFit
| _, .negation hOperand hOk => by
    have hBelow := hOperand.checked h
    rcases Expr.ofNegation_eq_ok hOk with
      ⟨t, line', rfl⟩ | ⟨-, hNum, rfl⟩
    · exact h.negated hBelow
    · exact h.negate _ hBelow hNum
| _, .inversion hOperand hOk => by
    have hBelow := hOperand.checked h
    rcases Expr.ofInversion_eq_ok hOk with
      ⟨line', rfl⟩ | ⟨-, hBool, rfl⟩
    · exact h.inverted hBelow
    · exact h.not _ hBelow hBool
| _, .arithmetic hLeft hRight hOk => by
    rcases Expr.joinArithmetic_eq_ok hOk with
      ⟨t, hPromote, rfl⟩
    exact h.arithmetic _ (hLeft.checked h)
      (hRight.checked h) hPromote
| _, .compare hLeft hRight hOk => by
    rcases Expr.joinCompare_eq_ok hOk with
      ⟨rfl, hComparable⟩
    exact h.compare _ (hLeft.checked h) (hRight.checked h)
      hComparable
| _, .and hLeft hRight hOk => by
    rcases Expr.conditions_of_join hOk with
      ⟨hBool, hBool', rfl⟩
    exact h.and _ (hLeft.checked h) (hRight.checked h)
      hBool hBool'
| _, .or hLeft hRight hOk => by
    rcases Expr.conditions_of_join hOk with
      ⟨hBool, hBool', rfl⟩
    exact h.or _ (hLeft.checked h) (hRight.checked h)
      hBool hBool'

end

end

namespace Expr

/- What holds of every expression that is read. -/
structure Accepted (e : Expr) : Prop where
  typed : e.WellTyped
  written : e.Written

theorem allLiteral_iff
    {es : List Expr} :
    AllLiteral es ↔ ∀ e ∈ es, e.IsLiteral := by
  induction es with
  | nil => simp [AllLiteral]
  | cons e rest ih => simp [AllLiteral, ih]

/- The bytes of a string are characters. -/
theorem ofString_accepted
    (value : String)
    (line : Nat) :
    (ofString value line).Accepted := by
  have hBytes :
      ∀ e ∈ value.toUTF8.toList.map
          (fun b => Expr.int (Int.bmod b.toNat 256)
            .char line),
        e.WellTyped ∧ e.IsLiteral ∧ e.Fits .char := by
    intro e hMem
    rcases List.mem_map.mp hMem with ⟨b, -, rfl⟩
    refine ⟨?_, trivial, Ty.convertsTo_self _⟩
    have hLow := @Int.le_bmod b.toNat 256 (by decide)
    have hHigh := @Int.bmod_lt b.toNat 256 (by decide)
    rw [WellTyped]
    exact .inr ⟨rfl, by omega, by omega⟩
  constructor
  · unfold ofString
    rw [WellTyped]
    refine ⟨allWellTyped_iff.mpr fun e hMem =>
      (hBytes e hMem).1, .char, rfl, ?_⟩
    exact allFit_iff.mpr fun e hMem => (hBytes e hMem).2.2
  · unfold ofString
    rw [Written]
    exact allLiteral_iff.mpr fun e hMem =>
      (hBytes e hMem).2.1

/- Elements that are literals fit the common type. -/
theorem elements_accepted
    {first : Expr}
    {rest : List Expr}
    {t : Ty}
    (hLiteral : AllLiteral (first :: rest))
    (hTyped : AllWellTyped (first :: rest))
    (hCommon : commonType first.ty rest = .ok t)
    (line : Nat) :
    Accepted (.array (first :: rest)
      (.array (rest.length + 1) t) line) := by
  refine ⟨?_, ?_⟩
  · rw [WellTyped]
    refine ⟨hTyped, t, rfl, ?_⟩
    rw [AllLiteral] at hLiteral
    rw [AllWellTyped] at hTyped
    rw [AllFit]
    rcases fits_of_commonType hCommon hLiteral.2 hTyped.2
      with ⟨hFirst, hRest⟩
    exact ⟨hFirst first hLiteral.1 hTyped.1
      (fits_of_convertsTo hTyped.1 (Ty.convertsTo_self _)),
        hRest⟩
  · rw [Written]
    exact hLiteral

/- The checks are all that well-typedness asks for. -/
theorem accepted_checked
    (σ : Scope) :
    Checked σ Place.WellTyped Accepted where
  var := fun _ => trivial
  element := fun _ hParent hIndex hIntegral hArray =>
    ⟨hParent, hIndex.typed, hIntegral, _, hArray⟩
  member := fun _ hParent hRecord hMember =>
    ⟨hParent, _, _, _, hRecord, hMember⟩
  int := fun _ hRange => ⟨.inl ⟨rfl, hRange⟩, trivial⟩
  float := fun _ _ => ⟨trivial, trivial⟩
  boolean := fun _ _ => ⟨trivial, trivial⟩
  string := ofString_accepted
  array := fun line _ hElements hConstant hCommon => by
    refine elements_accepted
      (allLiteral_iff.mpr fun e hMem => ?_)
      (allWellTyped_iff.mpr fun e hMem =>
        (hElements e hMem).typed)
      hCommon line
    exact (hElements e hMem).written.isLiteral
      (hConstant e hMem)
  read := fun _ hPlace => ⟨hPlace, trivial⟩
  call := fun _ _ hArgs hFit =>
    ⟨⟨allWellTyped_iff.mpr fun arg hMem =>
      (hArgs arg hMem).typed, hFit⟩, trivial⟩
  negate := fun _ hOperand hNumeric =>
    ⟨⟨hOperand.typed, rfl, hNumeric⟩, hOperand.written⟩
  negated := fun ⟨hTyped, hWritten⟩ => ⟨hTyped.1, hWritten⟩
  arithmetic := fun _ hLeft hRight hPromote =>
    ⟨⟨hLeft.typed, hRight.typed, hPromote⟩, trivial⟩
  compare := fun _ hLeft hRight hComparable =>
    ⟨⟨hLeft.typed, hRight.typed, hComparable⟩, trivial⟩
  and := fun _ hLeft hRight hBool hBool' =>
    ⟨⟨hLeft.typed, hRight.typed, hBool, hBool'⟩, trivial⟩
  or := fun _ hLeft hRight hBool hBool' =>
    ⟨⟨hLeft.typed, hRight.typed, hBool, hBool'⟩, trivial⟩
  not := fun _ hOperand hBool =>
    ⟨⟨hOperand.typed, hBool⟩, hOperand.written⟩
  inverted := fun ⟨hTyped, hWritten⟩ => ⟨hTyped.1, hWritten⟩

end Expr

theorem Place.Read.wellTyped
    {place : Place}
    (hRead : place.Read σ) :
    place.WellTyped :=
  hRead.checked (Expr.accepted_checked σ)

/- Every expression that is read is accepted. -/
theorem Expr.Read.accepted
    {e : Expr}
    (hRead : e.Read σ) :
    e.Accepted :=
  hRead.checked (Expr.accepted_checked σ)

/- The variable that a part is read from is in sight. -/
theorem Place.Read.lookup_root
    {σ : Scope} :
    ∀ {place : Place}, place.Read σ →
      ∃ name, σ.lookup name = some (.var place.root)
| _, .var hLookup => ⟨_, hLookup⟩
| _, .element hParent _ _ _ => hParent.lookup_root
| _, .member hParent _ _ => hParent.lookup_root

end Bracketry
