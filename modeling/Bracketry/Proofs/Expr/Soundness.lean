import Mathlib.Data.List.Forall2
import Bracketry.Proofs.Expr.Choice

/-
  This file shows that the code of an expression, in each of
  its three uses, does what the expression means.

  The result holds for every interpretation of instructions,
  so one may record what is executed, and another may
  compute values.

  Main declarations:
    * `Lowering.Implements`
    * `Place.address_computes` and `Expr.lower_implements`
-/

namespace Bracketry

variable {V W : Type}

------------------------------------------------------------
-- Uses of an Expression
------------------------------------------------------------

/- Each use of an expression does what it means. -/
structure Lowering.Implements
    (I : Interpretation V W)
    (lowering : Lowering)
    (meaning : Meaning V W) : Prop where
  reduce : Build.Computes I lowering.reduce meaning.value
  convert :
    ∀ target, Build.Computes I (lowering.convert target)
      (meaning.valueAs target)
  branches : Build.Decides I lowering.branches
    meaning.decision

namespace Build

variable {I : Interpretation V W}

/- Throwing a fault computes nothing, so anything. -/
theorem Realizes.throw
    {α β : Type}
    {denotes : (Nat → V) → α → β → Prop}
    {fault : Fault}
    (run : StateM W β) :
    Realizes I denotes (throw fault : Build α) run := by
  intro b a b' hOk
  cases hOk

/- A constant operand always denotes the same. -/
theorem Computes.constant
    {v : Value}
    (hBelow : ∀ bound, v.Below bound) :
    Computes I (pure v) (pure (I.constant v)) := by
  apply Realizes.pure
  intro registers
  have hNone :
      ∀ n < 0, registers n = I.nothing .void := by
    intro n hLt
    cases hLt
  exact I.operand_eq_of_below hNone (hBelow 0)

/- A slot is there wherever a place in it is used. -/
theorem Computes.allocate
    (slot : String)
    (t : Ty)
    (address : Value)
    (value : V)
    (hDenotes : ∀ registers,
      I.operand registers address = value) :
    Computes I
      (do
        Build.allocate slot t
        return address)
      (pure value) := by
  intro b a b' hOk hOpen
  rcases Step.bind_eq_ok.mp hOk with ⟨_, b₁, hFirst, hOk⟩
  rcases Step.pure_eq_ok.mp hOk with ⟨rfl, rfl⟩
  rcases Step.modify_eq_ok.mp hFirst with rfl
  by_cases hMem : slot ∈ b.allocated
  · have hSame : b.allocate slot t = b := by
      simp [Builder.allocate, hMem]
    rw [hSame]
    refine ⟨hOpen, ?_⟩
    intro code base m _ _ _ hControl
    exact ⟨m, .refl I code _ hControl, rfl, hDenotes _⟩
  · have hAppend : b.allocate slot t =
        { b with allocated := slot :: b.allocated }.append
          (.allocate slot t) := by
      simp [Builder.allocate, hMem]
    rw [hAppend]
    refine ⟨rfl, ?_⟩
    intro code base m hWithin hDistinct hBase hControl
    exact ⟨m.goto (.line (b.here base + 1)),
      Interpretation.passes_append hWithin hBase hOpen
        hControl rfl rfl (fun _ _ => rfl), rfl, hDenotes _⟩

end Build

namespace Lowering

variable {I : Interpretation V W}

open Build

variable {reduce : Build Value} {value : StateM W V}
variable {meanings : List (Meaning V W)}
variable {decision : StateM W Bool} {args : List Lowering}

theorem ofConvert_implements
    {convert : Ty → Build Value}
    {valueAs : Ty → StateM W V}
    (hReduce : Computes I reduce value)
    (hConvert : ∀ t, Computes I (convert t) (valueAs t))
    (hWrites : ∀ t, Build.Writes [] (convert t)) :
    (ofConvert reduce convert).Implements I
      (.ofValueAs I value valueAs) where
  reduce := hReduce
  convert := hConvert
  branches := (hConvert .bool).decides (hWrites .bool)

theorem ofReduce_implements
    {t : Ty}
    (hReduce : Computes I reduce value)
    (hYields : Build.Yields t reduce)
    (hWrites : Build.Writes [] reduce)
    (line : Nat) :
    (ofReduce reduce line).Implements I
      (.ofValue I t value) :=
  ofConvert_implements hReduce
    (fun target => hReduce.convertValue hYields hWrites
      target line)
    fun target => hWrites.bind_nil fun value =>
      .convertValue value target line

theorem withBranches_implements
    {branches : Choice}
    (hReduce : Computes I reduce value)
    (hYields : Build.Yields .bool reduce)
    (hWrites : Build.Writes [] reduce)
    (hBranches : Decides I branches decision)
    (line : Nat) :
    (withBranches reduce branches line).Implements I
      (.withDecision I value decision) where
  reduce := hReduce
  convert :=
    (ofReduce_implements hReduce hYields hWrites
      line).convert
  branches := hBranches

/- A choice is an operand by the merge of its outcomes. -/
theorem merge_implements
    {branches : Choice}
    (hBranches : Decides I branches decision)
    (hWrites :
      ∀ onTrue onFalse,
        Build.Writes [] (branches onTrue onFalse))
    (line : Nat) :
    (withBranches (merge branches) branches line).Implements
      I (.ofDecision I decision) :=
  withBranches_implements (merge_computes hBranches hWrites)
    (.of_offers
      (merge_offers fun _ _ _ => .of_writes (hWrites _ _)))
    (merge_writes fun _ _ => hWrites _ _) hBranches line

theorem ofLiteral_implements
    {value : Value}
    {fold : Ty → Option Value}
    (hBelow : ∀ bound, value.Below bound)
    (hFold :
      ∀ target folded, fold target = some folded →
        ∀ bound, folded.Below bound)
    (line : Nat) :
    (ofLiteral value fold line).Implements I
      (.ofLiteral I value fold) := by
  apply ofConvert_implements (.constant hBelow)
  · intro target
    cases hFolded : fold target with
    | none => exact .throw _
    | some folded =>
        exact .constant (hFold target folded hFolded)
  · intro target
    cases fold target with
    | none => exact .throw _
    | some folded => exact .pure folded

/- Two operands of one type are compared. -/
theorem compare_computes
    {left right : Lowering}
    {first second : Meaning V W}
    {s : Ty}
    (hLeft : left.Implements I first)
    (hRight : right.Implements I second)
    (hYields : left.Yields s)
    (hWritesLeft : left.Writes)
    (hWritesRight : right.Writes)
    (op : Comparison)
    (common : Except Fault Ty) :
    Computes I (compare op left right common)
      (Meaning.compare I op first second common) := by
  cases common with
  | error fault => exact .throw _
  | ok t =>
      exact (hLeft.convert t).combine (hRight.convert t)
        (hYields.convert t) (hWritesLeft.convert t)
        (hWritesRight.convert t) .bool
        (fun dest a b => .compare dest op t a b)
          (I.compare op t)
        (fun _ _ _ => rfl) (fun _ _ _ _ _ => rfl)

/- Arguments are computed from the left to the right. -/
theorem convertEach_computes
    (hArgs : List.Forall₂ (Implements I) args meanings)
    (hWrites : ∀ arg ∈ args, arg.Writes)
    (hYields : ∀ arg ∈ args, ∃ t, arg.Yields t)
    (params : List Ty) :
    ComputesAll I (convertEach args params)
      (Meaning.valuesEach meanings params) := by
  induction hArgs generalizing params with
  | nil =>
      apply Realizes.pure
      intro registers
      rw [Interpretation.operands]
  | @cons arg meaning args meanings hArg hRest ih =>
      cases params with
      | nil =>
          apply Realizes.pure
          intro registers
          rw [Interpretation.operands]
      | cons param params =>
          rcases hYields arg List.mem_cons_self with
            ⟨t, hYieldsArg⟩
          have hWritesRest : ∀ other ∈ args, other.Writes :=
            fun other hMem =>
              hWrites other (List.mem_cons_of_mem arg hMem)
          have hOthers := ih hWritesRest
            (fun other hMem =>
              hYields other (List.mem_cons_of_mem arg hMem))
                params
          apply (hArg.convert param).andThen hOthers
            (hYieldsArg.convert param)
            ((hWrites arg List.mem_cons_self).convert param)
            (convertEach_writes params hWritesRest)
            List.cons List.cons
          intro registers v vs values hDenotes
          rw [Interpretation.operands, hDenotes]

theorem valuesAll_eq_valuesEach
    (t : Ty)
    (meanings : List (Meaning V W)) :
    Meaning.valuesAll t meanings =
      Meaning.valuesEach meanings
        (List.replicate meanings.length t) := by
  induction meanings with
  | nil => rfl
  | cons meaning rest ih =>
      rw [Meaning.valuesAll, ih]
      rfl

/- Elements are computed from the left to the right. -/
theorem array_computes
    {elements : List Lowering}
    (hElements :
      List.Forall₂ (Implements I) elements meanings)
    (hWrites : ∀ element ∈ elements, element.Writes)
    (hYields : ∀ element ∈ elements, ∃ t, element.Yields t)
    (source : Ty)
    (line : Nat)
    (target : Ty) :
    Computes I (array elements source line target)
      (Meaning.array I meanings target) := by
  unfold array Meaning.array
  cases target.element? with
  | none => exact .throw _
  | some t =>
      have hAll :=
        convertEach_computes hElements hWrites hYields
        (List.replicate elements.length t)
      rw [← convertAll_eq_convertEach, hElements.length_eq,
        ← valuesAll_eq_valuesEach] at hAll
      apply hAll.map
      intro registers vs values hDenotes
      rw [Interpretation.operand, hDenotes]

/- A call happens behind its arguments. -/
theorem call_computes
    (hArgs : List.Forall₂ (Implements I) args meanings)
    (hWrites : ∀ arg ∈ args, arg.Writes)
    (hYields : ∀ arg ∈ args, ∃ t, arg.Yields t)
    (callee : Identifier)
    (params : List Ty)
    (t : Ty) :
    Computes I (call callee args params t)
      (Meaning.call I callee meanings params t) := by
  have hValues :=
    convertEach_computes hArgs hWrites hYields params
  have hWritesValues := convertEach_writes params hWrites
  unfold call Meaning.call
  by_cases hVoid : t = .void
  · simp only [hVoid, if_true]
    have hPerform := hValues.perform hWritesValues
      (fun values => .call none .void callee.storage values)
      (fun values => I.call callee.storage .void values)
      (fun _ => rfl)
      (by
        intro vs values m position hDenotes
        rw [← hDenotes]
        rfl)
    have hResult :
        ∀ registers,
          I.operand registers (.void .void) =
            I.nothing .void := by
      intro registers
      rw [Interpretation.operand]
    have hMap : Computes I _ _ := hPerform.map
      (fun _ => .void .void) (fun _ => I.nothing .void)
      (fun registers _ _ _ => hResult registers)
    simpa only [bind_assoc] using hMap
  · simp only [hVoid, if_false]
    have hDefine := hValues.define hWritesValues t
      (fun dest values =>
        .call (some dest) t callee.storage values)
      (fun values => I.call callee.storage t values)
      (fun _ _ => rfl)
      (by
        intro dest vs values m position hDenotes
        rw [← hDenotes]
        rfl)
    simpa only [bind_pure] using hDefine

end Lowering

------------------------------------------------------------
-- Expressions
------------------------------------------------------------

mutual

/- The code of a place computes its address. -/
theorem Place.address_computes
    (I : Interpretation V W) :
    ∀ place : Place,
      Build.Computes I place.address (place.located I)
| .var x => by
    rw [Place.address, Place.located]
    apply Build.Computes.allocate
    intro registers
    rw [Interpretation.operand]
| .element parent index t => by
    rw [Place.address, Place.located]
    have hIndex := Expr.lower_implements I index
    exact (Place.address_computes I parent).combine
      (hIndex.convert .int) (Place.address_yields parent)
      (Place.address_writes parent)
      ((Expr.lower_writes index).convert .int) (.pointer t)
      (fun dest base position =>
        .element dest parent.ty base position t)
      (fun base position =>
        I.element parent.ty base position t)
      (fun _ _ _ => rfl) (fun _ _ _ _ _ => rfl)
| .member parent position name t => by
    rw [Place.address, Place.located]
    apply (Place.address_computes I parent).define
      (Place.address_writes parent) (.pointer t)
      (fun dest base =>
        .element dest parent.ty base (.int position .int) t)
      (fun base =>
        I.element parent.ty base (I.int position .int) t)
      (fun _ _ => rfl)
    intro dest v m position
    simp only [Interpretation.exec, Interpretation.operand]

/- Code does what the expression means. -/
theorem Expr.lower_implements
    (I : Interpretation V W) :
    ∀ e : Expr, e.lower.Implements I (e.meaning I)
| .int value t line => by
    rw [Expr.lower, Expr.meaning]
    exact Lowering.ofLiteral_implements
      (by simp [Value.Below])
      (fun _ _ hFolded => Value.ofInt?_below hFolded) line
| .float value line => by
    rw [Expr.lower, Expr.meaning]
    exact Lowering.ofLiteral_implements
      (by simp [Value.Below])
      (fun _ _ hFolded => Value.ofFloat?_below hFolded) line
| .boolean value line => by
    rw [Expr.lower, Expr.meaning]
    have hReduce :
        Build.Computes I (pure (.bool value .bool))
          (pure (I.bool value .bool)) := by
      apply Build.Realizes.pure
      intro registers
      rw [Interpretation.operand]
    exact Lowering.withBranches_implements hReduce
      (.pure rfl (by simp [Value.Below])) (.pure _)
      (Lowering.settled_decides value) line
| .zero t line => by
    rw [Expr.lower, Expr.meaning]
    have hReduce :
        Build.Computes I (pure (.zero t))
          (pure (I.zero t)) := by
      apply Build.Realizes.pure
      intro registers
      rw [Interpretation.operand]
    exact Lowering.ofReduce_implements hReduce
      (.pure rfl (by simp [Value.Below])) (.pure _) line
| .array elements t line => by
    have hWrites :=
      Expr.lower_writes (.array elements t line)
    rw [Expr.lower] at hWrites
    rw [Expr.lower, Expr.meaning]
    have hArray := Lowering.array_computes
      (Expr.lowerAll_implements I elements)
      (Expr.lowerAll_writes elements)
      (Expr.lowerAll_yields elements) t line
    exact Lowering.ofConvert_implements (hArray t) hArray
      hWrites.convert
| .read place line => by
    have hYields := Expr.lower_yields (.read place line)
    have hWrites := Expr.lower_writes (.read place line)
    rw [Expr.lower] at hYields hWrites
    rw [Expr.lower, Expr.meaning]
    apply Lowering.ofReduce_implements _ hYields.reduce
      hWrites.reduce
    apply Build.Realizes.define
      (Place.address_computes I place)
      (Place.address_writes place) place.ty
      (fun dest address => .load dest place.ty address)
      (fun address => I.load place.ty address)
      (fun _ _ => rfl)
    intro dest address value m position hDenotes
    rw [← hDenotes]
    rfl
| .arithmetic op left right t line => by
    have hYields :=
      Expr.lower_yields (.arithmetic op left right t line)
    have hWrites :=
      Expr.lower_writes (.arithmetic op left right t line)
    rw [Expr.lower] at hYields hWrites
    rw [Expr.lower, Expr.meaning]
    have hLeft := (Expr.lower_implements I left).convert t
    have hRight := (Expr.lower_implements I right).convert t
    have hReduce := hLeft.combine hRight
      ((Expr.lower_yields left).convert t)
      ((Expr.lower_writes left).convert t)
      ((Expr.lower_writes right).convert t) t
      (fun dest a b => .arithmetic dest op t a b)
      (I.arithmetic op t) (fun _ _ _ => rfl)
        (fun _ _ _ _ _ => rfl)
    exact Lowering.ofReduce_implements hReduce
      hYields.reduce hWrites.reduce line
| .negate operand t line => by
    have hYields :=
      Expr.lower_yields (.negate operand t line)
    have hWrites :=
      Expr.lower_writes (.negate operand t line)
    rw [Expr.lower] at hYields hWrites
    rw [Expr.lower, Expr.meaning]
    have hReduce :=
      (Expr.lower_implements I operand).reduce.define
      (Expr.lower_writes operand).reduce t
      (fun dest value => .negate dest t value) (I.negate t)
      (fun _ _ => rfl) (fun _ _ _ _ => rfl)
    exact Lowering.ofReduce_implements hReduce
      hYields.reduce hWrites.reduce line
| .call callee prototype args params t line => by
    have hYields :=
      Expr.lower_yields
        (.call callee prototype args params t line)
    have hWrites :=
      Expr.lower_writes
        (.call callee prototype args params t line)
    rw [Expr.lower] at hYields hWrites
    rw [Expr.lower, Expr.meaning]
    have hReduce := Lowering.call_computes
      (Expr.lowerAll_implements I args)
        (Expr.lowerAll_writes args)
      (Expr.lowerAll_yields args) callee params t
    exact Lowering.ofReduce_implements hReduce
      hYields.reduce hWrites.reduce line
| .compare op left right line => by
    have hYields :=
      Expr.lower_yields (.compare op left right line)
    have hWrites :=
      Expr.lower_writes (.compare op left right line)
    rw [Expr.lower] at hYields hWrites
    rw [Expr.lower, Expr.meaning]
    have hReduce := Lowering.compare_computes
      (Expr.lower_implements I left)
        (Expr.lower_implements I right)
      (Expr.lower_yields left) (Expr.lower_writes left)
      (Expr.lower_writes right) op
      (Lowering.comparedAs left.ty right.ty line)
    exact Lowering.withBranches_implements hReduce
      hYields.reduce hWrites.reduce
        (hReduce.decides hWrites.reduce) line
| .and left right line => by
    have hWrites := Expr.lower_writes (.and left right line)
    rw [Expr.lower] at hWrites
    rw [Expr.lower, Expr.meaning]
    exact Lowering.merge_implements
      (Lowering.both_decides
        (Expr.lower_implements I left).branches
        (Expr.lower_implements I right).branches
        (Expr.lower_writes left).branches
        (Expr.lower_writes right).branches)
      hWrites.branches line
| .or left right line => by
    have hWrites := Expr.lower_writes (.or left right line)
    rw [Expr.lower] at hWrites
    rw [Expr.lower, Expr.meaning]
    exact Lowering.merge_implements
      (Lowering.either_decides
        (Expr.lower_implements I left).branches
        (Expr.lower_implements I right).branches
        (Expr.lower_writes left).branches
        (Expr.lower_writes right).branches)
      hWrites.branches line
| .not operand line => by
    rw [Expr.lower, Expr.meaning]
    exact Lowering.merge_implements
      (Expr.lower_implements I operand).branches.opposite
      (fun onTrue onFalse =>
        (Expr.lower_writes operand).branches onFalse onTrue)
          line

/- Several expressions, one by one. -/
theorem Expr.lowerAll_implements
    (I : Interpretation V W) :
    ∀ es : List Expr,
      List.Forall₂ (Lowering.Implements I)
        (Expr.lowerAll es) (Expr.meanings I es)
| [] => by
    rw [Expr.lowerAll, Expr.meanings]
    exact .nil
| e :: rest => by
    rw [Expr.lowerAll, Expr.meanings]
    exact .cons (Expr.lower_implements I e)
      (Expr.lowerAll_implements I rest)

end

end Bracketry
