import Bracketry.Proofs.Expr.Progress
import Bracketry.Proofs.Expr.Soundness

/-
  This file shows that the code of a condition evaluates the
  condition by short circuit.

  A leaf is evaluated and tested; the second side of an
  operator is decided only when the first does not settle
  the outcome.  Since an interpretation can record all it
  executes in its world, the same world means that the same
  leaves were evaluated in the same order.

  Main declarations:
    * `Expr.shortCircuit` and `Expr.leafDecision`
    * `Expr.decision_eq_shortCircuit`
    * `Expr.branches_shortCircuit`
-/

namespace Bracketry

variable {V W : Type}

namespace Expr

variable {b b' : Builder}
variable (I : Interpretation V W)

/- Decide a condition, given a way to decide its leaves. -/
def shortCircuit
    (leaf : Expr → StateM W Bool) :
    Expr → StateM W Bool
| .boolean value _ => return value
| .not operand _ => do
    let outcome ← operand.shortCircuit leaf
    return !outcome
| .and left right _ => do
    if ← left.shortCircuit leaf then
      right.shortCircuit leaf
    else
      return false
| .or left right _ => do
    if ← left.shortCircuit leaf then
      return true
    else
      right.shortCircuit leaf
| e => leaf e

/- A leaf is evaluated as a bool and tested. -/
def leafDecision
    (I : Interpretation V W)
    (e : Expr) : StateM W Bool := do
  let value ← (e.meaning I).valueAs .bool
  I.test value

theorem converted_self
    (t : Ty)
    (v : V) :
    I.converted t t v = return v := by
  simp [Interpretation.converted]

/- An expression is decided by short circuit. -/
theorem decision_eq_shortCircuit
    (I : Interpretation V W) :
    ∀ e : Expr,
      (e.meaning I).decision =
        e.shortCircuit (leafDecision I)
| .boolean value line => by
    rw [meaning, shortCircuit]
    rfl
| .not operand line => by
    rw [meaning, shortCircuit, ← decision_eq_shortCircuit
      I operand]
    rfl
| .and left right line => by
    rw [meaning, shortCircuit, ← decision_eq_shortCircuit I
      left, ← decision_eq_shortCircuit I right]
    rfl
| .or left right line => by
    rw [meaning, shortCircuit, ← decision_eq_shortCircuit I
      left, ← decision_eq_shortCircuit I right]
    rfl
| .compare op left right line => by
    simp only [shortCircuit, leafDecision, meaning,
      Meaning.withDecision, Meaning.ofValue,
        Meaning.ofValueAs,
      Interpretation.tested, converted_self, bind_pure]
| .int value t line => by
    simp only [shortCircuit, leafDecision, meaning]
    rfl
| .float value line => by
    simp only [shortCircuit, leafDecision, meaning]
    rfl
| .zero t line => by
    simp only [shortCircuit, leafDecision, meaning]
    rfl
| .array elements t line => by
    simp only [shortCircuit, leafDecision, meaning]
    rfl
| .read place line => by
    simp only [shortCircuit, leafDecision, meaning]
    rfl
| .arithmetic op left right t line => by
    simp only [shortCircuit, leafDecision, meaning]
    rfl
| .negate operand t line => by
    simp only [shortCircuit, leafDecision, meaning]
    rfl
| .call callee prototype args params t line => by
    simp only [shortCircuit, leafDecision, meaning]
    rfl

/- Conjunctions, disjunctions and negations. -/
def IsConnective : Expr → Prop
| .and _ _ _ => True
| .or _ _ _ => True
| .not _ _ => True
| _ => False

variable {e : Expr} {m : Machine V W}

theorem IsConnective.ty_eq
    (hConnective : e.IsConnective) :
    e.ty = .bool := by
  cases e with
  | and left right line => rfl
  | or left right line => rfl
  | not operand line => rfl
  | _ => cases hConnective

/- A connective has the value of its decision. -/
theorem value_eq_shortCircuit
    (hConnective : e.IsConnective) :
    (e.meaning I).value = do
      let outcome ← e.shortCircuit (leafDecision I)
      return I.bool outcome .bool := by
  rw [← decision_eq_shortCircuit]
  cases e with
  | and left right line =>
      rw [meaning]
      rfl
  | or left right line =>
      rw [meaning]
      rfl
  | not operand line =>
      rw [meaning]
      rfl
  | _ => cases hConnective

------------------------------------------------------------
-- Code of Conditions
------------------------------------------------------------

/-
  A machine has left a text for a target, or has come to its
  end in an open block where the target is missing.
-/
def LeftFor
    (b b' : Builder)
    (target : Option Label)
    (m : Machine V W) : Prop :=
  match target with
  | some l => m.control = .target l
  | none =>
      b'.between = false ∧
        m.control = .line (b.emitted b').length

/- A machine that has left a text executes no more of it. -/
theorem LeftFor.halted
    {I : Interpretation V W}
    {target : Option Label}
    (hLeft : LeftFor b b' target m)
    (hWrites : b.Writes [] b')
    (hReserved : ∀ l, target = some l →
      l.number < b.nextLabel) :
    I.Halted (b.emitted b') m := by
  cases target with
  | none => exact Interpretation.halted_of_end hLeft.2
  | some l =>
      exact Interpretation.halted_of_target hLeft
        (hWrites.entry_eq_none (hReserved l rfl) (by simp))

/- The code of a condition decides it by short circuit. -/
theorem leaves_branches
    {onTrue onFalse : Option Label}
    (hTarget : onTrue.isSome ∨ onFalse.isSome)
    (hOk : e.branches onTrue onFalse b = .ok () b')
    (hOpen : b.between = false)
    (hStart : m.control = .line 0) :
    ∃ m', I.Reaches (b.emitted b') m m' ∧
      LeftFor b b'
        (if (e.shortCircuit (leafDecision I) m.world).1
          then onTrue else onFalse) m' ∧
      m'.world =
        (e.shortCircuit (leafDecision I) m.world).2 := by
  have hWrites :=
    ((lower_writes e).branches onTrue onFalse).ok hOk
  have hControl :
      m.control = .line (b.here b.lines.size) := by
    rw [hStart, Builder.here_start]
  rcases (lower_implements I e).branches hTarget hOk hOpen
      hWrites.within (hWrites.distinct List.nodup_nil)
      (Nat.le_refl _) hControl with
    ⟨m', hLeaves, hWorld⟩
  rw [decision_eq_shortCircuit] at hLeaves hWorld
  refine ⟨m', hLeaves.reaches, ?_, hWorld⟩
  have hArrives := hLeaves.arrives
  unfold LeftFor
  unfold Builder.Arrives at hArrives
  rwa [Builder.here_end] at hArrives

/- A connective merges the outcomes to its value. -/
theorem passes_reduce
    {v : Value}
    (hConnective : e.IsConnective)
    (hOk : e.reduce b = .ok v b')
    (hOpen : b.between = false)
    (hStart : m.control = .line 0) :
    ∃ m', I.Reaches (b.emitted b') m m' ∧
      LeftFor b b' none m' ∧
      m'.world =
        (e.shortCircuit (leafDecision I) m.world).2 ∧
      I.operand m'.registers v =
        I.bool (e.shortCircuit (leafDecision I) m.world).1
          .bool := by
  have hWrites := (lower_writes e).reduce.ok hOk
  have hControl :
      m.control = .line (b.here b.lines.size) := by
    rw [hStart, Builder.here_start]
  rcases (lower_implements I e).reduce hOk hOpen with
    ⟨hOpen', hPasses⟩
  rcases hPasses hWrites.within
      (hWrites.distinct List.nodup_nil)
      (Nat.le_refl _) hControl with
    ⟨m', hTo, hWorld, hDenotes⟩
  rw [value_eq_shortCircuit I hConnective]
    at hWorld hDenotes
  have hEnd := hTo.control
  rw [Builder.here_end] at hEnd
  exact ⟨m', hTo.reaches, ⟨hOpen', hEnd⟩, hWorld, hDenotes⟩

/-
  The text of a condition, written as a choice between
  labels of which at most one is missing, evaluates by short
  circuit and leaves for the label of the outcome; where
  that is missing, and only there, it comes to its end in an
  open block.  A connective can also be written as an
  operand, which has the outcome as its value.  Writing
  succeeds where the condition is well typed.

  The labels were handed out before the text was written.
-/
theorem branches_shortCircuit
    (e : Expr)
    (b : Builder)
    (hOpen : b.between = false) :
    (∀ onTrue onFalse : Option Label,
      onTrue.isSome ∨ onFalse.isSome →
      (∀ l : Label, onTrue = some l ∨ onFalse = some l →
        l.number < b.nextLabel) →
      (e.WellTyped → e.ty = .bool →
        ∃ b', e.branches onTrue onFalse b = .ok () b') ∧
      ∀ b', e.branches onTrue onFalse b = .ok () b' →
        ∀ (V W : Type) (I : Interpretation V W)
          (m : Machine V W), m.control = .line 0 →
          let decided :=
            e.shortCircuit (leafDecision I) m.world
          ∃ m', I.Reaches (b.emitted b') m m' ∧
            I.Halted (b.emitted b') m' ∧
            LeftFor b b'
              (if decided.1 then onTrue else onFalse) m' ∧
            m'.world = decided.2) ∧
    (e.IsConnective →
      (e.WellTyped → ∃ v b', e.reduce b = .ok v b') ∧
      ∀ v b', e.reduce b = .ok v b' →
        v.ty = .bool ∧
        ∀ (V W : Type) (I : Interpretation V W)
          (m : Machine V W), m.control = .line 0 →
          let decided :=
            e.shortCircuit (leafDecision I) m.world
          ∃ m', I.Reaches (b.emitted b') m m' ∧
            I.Halted (b.emitted b') m' ∧
            LeftFor b b' none m' ∧
            m'.world = decided.2 ∧
            I.operand m'.registers v =
              I.bool decided.1 .bool) := by
  constructor
  · intro onTrue onFalse hTarget hReserved
    constructor
    · intro hTyped hBool
      rcases (lower_succeeds e hTyped).branches hBool onTrue
        onFalse b with ⟨_, b', hOk⟩
      exact ⟨b', hOk⟩
    · intro b' hOk V W I m hStart decided
      rcases leaves_branches I hTarget hOk hOpen hStart with
        ⟨m', hReaches, hLeft, hWorld⟩
      have hWrites :=
        ((lower_writes e).branches onTrue onFalse).ok hOk
      refine ⟨m', hReaches, hLeft.halted hWrites ?_,
        hLeft, hWorld⟩
      intro l hTaken
      apply hReserved l
      by_cases hOutcome : decided.1 = true
      · left
        rwa [if_pos hOutcome] at hTaken
      · right
        rwa [if_neg hOutcome] at hTaken
  · intro hConnective
    constructor
    · intro hTyped
      exact (lower_succeeds e hTyped).reduce b
    · intro v b' hOk
      have hTy := ((lower_yields e).reduce hOk).1
      refine ⟨hTy.trans hConnective.ty_eq, ?_⟩
      intro V W I m hStart decided
      rcases passes_reduce I hConnective hOk hOpen
        hStart with
        ⟨m', hReaches, hLeft, hWorld, hValue⟩
      have hHalted : I.Halted (b.emitted b') m' :=
        Interpretation.halted_of_end hLeft.2
      exact ⟨m', hReaches, hHalted, hLeft, hWorld, hValue⟩

/- Either armed and not muted, or forced. -/
def alarm : Expr :=
  let armed : Identifier := ⟨"armed", .bool, .global, 1⟩
  let muted : Identifier := ⟨"muted", .bool, .global, 1⟩
  let forced : Identifier := ⟨"forced", .bool, .global, 1⟩
  .or
    (.and (.read (.var armed) 2)
      (.not (.read (.var muted) 2) 2) 2)
    (.read (.var forced) 2) 2

/-
  All three leaves are tested where the first two are true;
  the last one settles the outcome, whose label is missing.
-/
theorem alarm_tests_all :
    let b := Builder.empty.reserve.2
    let start :
      Machine String (List Bool × List (Event String)) :=
      ⟨.line 0, none, none, fun _ => "",
        [true, true, false], []⟩
    alarm.WellTyped ∧ alarm.ty = .bool ∧
      ∃ b', alarm.branches (some ⟨1⟩) none b = .ok () b' ∧
        ∃ m', Interpretation.scripted.traced.Reaches
            (b.emitted b') start m' ∧
          LeftFor b b' none m' ∧
          m'.world =
            ([],
              [.tested "@armed" true, .tested "@muted" true,
              .tested "@forced" false]) := by
  intro b start
  have hTyped : alarm.WellTyped := by
    simp [alarm, WellTyped, Place.WellTyped, ty, Place.ty]
  have hBool : alarm.ty = .bool := rfl
  have hReserved :
      ∀ l : Label, some ⟨1⟩ = some l ∨ none = some l →
        l.number < b.nextLabel := by
    rintro l (hSome | hNone)
    · cases hSome
      decide
    · cases hNone
  rcases (branches_shortCircuit alarm b rfl).1
      (some ⟨1⟩) none (.inl rfl) hReserved with
    ⟨hWritten, hRuns⟩
  rcases hWritten hTyped hBool with ⟨b', hOk⟩
  rcases hRuns b' hOk _ _ Interpretation.scripted.traced
    start rfl with
    ⟨m', hReaches, -, hLeft, hWorld⟩
  exact ⟨hTyped, hBool, b', hOk, m', hReaches,
    hLeft, hWorld⟩

end Expr

end Bracketry
