import Bracketry.Proofs.Code.Allocation
import Bracketry.Proofs.Code.Registers
import Bracketry.Proofs.Code.Steps

/-
  This file follows temporaries through the steps that write
  code.

  A step may use the temporaries that are live before it,
  and those that it defines.  All uses of the latter stand
  in a stretch behind the definition.  What the step hands
  on is defined before anything that control could bypass.

  Main declarations:
    * `Builder.Offers` and `Build.Flows`
    * `Build.Flows.bindOf` and `Build.Flows.define`
-/

namespace Bracketry

mutual

/- The temporaries that an operand is made of. -/
def Value.temporaries : Value → List Nat
| .temporary n _ => [n]
| .array elements _ => Value.allTemporaries elements
| _ => []

/- The temporaries of several operands. -/
def Value.allTemporaries : List Value → List Nat
| [] => []
| v :: rest => v.temporaries ++ Value.allTemporaries rest

end

namespace Instruction

/- The operands of an instruction. -/
def operands : Instruction → List Value
| .load _ _ address => [address]
| .store value address => [value, address]
| .arithmetic _ _ _ left right => [left, right]
| .negate _ _ operand => [operand]
| .compare _ _ _ left right => [left, right]
| .convert _ _ value _ => [value]
| .element _ _ base index _ => [base, index]
| .call _ _ _ args => args
| .branch condition _ _ => [condition]
| .ret value => value.toList
| _ => []

/- The temporaries that an instruction uses. -/
def temporaries (i : Instruction) : List Nat :=
  Value.allTemporaries i.operands

/- An instruction uses a temporary. -/
def Uses
    (n : Nat)
    (i : Instruction) : Prop :=
  n ∈ i.temporaries

/- An instruction defines a temporary. -/
def Defines
    (n : Nat)
    (i : Instruction) : Prop :=
  i.dest? = some n

/- An instruction uses no temporaries but given ones. -/
def UsesOnly
    (live : List Nat)
    (i : Instruction) : Prop :=
  ∀ n ∈ i.temporaries, n ∈ live

end Instruction

theorem Value.mem_allTemporaries
    {n : Nat}
    {vs : List Value} :
    n ∈ Value.allTemporaries vs ↔
      ∃ v ∈ vs, n ∈ v.temporaries := by
  induction vs with
  | nil => simp [allTemporaries]
  | cons v rest ih => simp [allTemporaries, ih]

theorem Instruction.usesOnly_iff
    {live : List Nat}
    {i : Instruction} :
    i.UsesOnly live ↔
      ∀ v ∈ i.operands, ∀ n ∈ v.temporaries, n ∈ live := by
  simp only [UsesOnly, temporaries,
    Value.mem_allTemporaries]
  constructor
  · exact fun h v hMem n hUse => h n ⟨v, hMem, hUse⟩
  · rintro h n ⟨v, hMem, hUse⟩
    exact h v hMem n hUse

open Instruction (Uses Defines UsesOnly)

------------------------------------------------------------
-- Live Temporaries
------------------------------------------------------------

namespace Builder

/- All of some temporaries have been handed out. -/
def Numbered
    (b : Builder)
    (live : List Nat) : Prop :=
  ∀ n ∈ live, n < b.nextTemporary

/- A label is handed out between two states. -/
def Fresh
    (b b' : Builder)
    (l : Label) : Prop :=
  b.nextLabel ≤ l.number ∧ l.number < b'.nextLabel

/- All uses stand in a stretch behind the definition. -/
def Settles
    (b b' : Builder)
    (code : List Line)
    (n : Nat) : Prop :=
  Line.Avoids (Uses n) code ∨
    Line.Confines (Defines n) (Uses n) (b.Fresh b') code

/-
  The code uses temporaries that are live or its own, and
  its own only behind their definition.
-/
structure Flow
    (live : List Nat)
    (b : Builder)
    (code : List Line)
    (b' : Builder) : Prop where
  used :
    ∀ i, .instruction i ∈ code → ∀ n ∈ i.temporaries,
      n ∈ live ∨
        (b.nextTemporary ≤ n ∧ n < b'.nextTemporary)
  settled : ∀ n, b.nextTemporary ≤ n → b.Settles b' code n

/-
  Temporaries that are handed on were live, or no way leads
  past their definition to what comes behind the code.
-/
def Offers
    (live : List Nat)
    (b : Builder)
    (code : List Line)
    (b' : Builder)
    (result : List Nat) : Prop :=
  ∀ n ∈ result, n ∈ live ∨
    (b.nextTemporary ≤ n ∧ n < b'.nextTemporary ∧
      Line.Opens (Defines n) (Uses n) code)

variable {reach : Reach} {given own own₁ own₂ : List Label}
variable {live later result : List Nat} {b b₁ b' : Builder}
variable {code first second : List Line}

theorem Numbered.not_mem
    {n : Nat}
    (hLive : b.Numbered live)
    (hLe : b.nextTemporary ≤ n) :
    n ∉ live :=
  fun hMem => absurd (hLive n hMem) (Nat.not_lt_of_le hLe)

theorem Numbered.grow
    (hLive : b.Numbered live)
    (hLe : b.nextTemporary ≤ b'.nextTemporary) :
    b'.Numbered live :=
  fun n hMem => Nat.lt_of_lt_of_le (hLive n hMem) hLe

/- What is handed on is known behind the code. -/
theorem Offers.numbered
    (hOffers : b.Offers live code b' result)
    (hLive : b.Numbered live)
    (hLe : b.nextTemporary ≤ b'.nextTemporary) :
    b'.Numbered (result ++ live) := by
  refine List.forall_mem_append.mpr ⟨?_, hLive.grow hLe⟩
  intro n hMem
  rcases hOffers n hMem with hOld | ⟨-, hLt, -⟩
  · exact hLive.grow hLe n hOld
  · exact hLt

theorem Offers.ofLive
    (hResult : ∀ n ∈ result, n ∈ live) :
    b.Offers live code b' result :=
  fun n hMem => .inl (hResult n hMem)

namespace Flow

/- Code that uses nothing but what is live. -/
theorem ofSteps
    (hEmits : b.Emits reach given own code b')
    (hSteps : b.Steps (UsesOnly live) b')
    (hLive : b.Numbered live) :
    b.Flow live code b' := by
  rcases hSteps.lines_eq with ⟨written, hLines, hUses⟩
  rw [hEmits.lines_eq] at hLines
  rcases List.append_cancel_left hLines with rfl
  have hOnly :
      ∀ i, .instruction i ∈ code → UsesOnly live i := by
    intro i hMem
    rcases hUses i hMem with hIn | ⟨l, rfl⟩
    · exact hIn
    · intro n hUse
      cases hUse
  constructor
  case used =>
    exact fun i hMem n hUse => .inl (hOnly i hMem n hUse)
  case settled =>
    refine fun n hLe => .inl fun i hMem hUse => ?_
    exact hLive.not_mem hLe (hOnly i hMem n hUse)

theorem weaken
    (h : b.Flow live code b')
    (hMore : ∀ n ∈ live, n ∈ later) :
    b.Flow later code b' where
  used := fun i hMem n hUse =>
    (h.used i hMem n hUse).imp_left (hMore n)
  settled := h.settled

/- A label may have been handed out before. -/
theorem ofReserve
    (h : Flow live b.reserve.2 code b') :
    b.Flow live code b' where
  used := h.used
  settled := by
    intro n hLe
    refine (h.settled n hLe).imp_right fun hConfines => ?_
    exact hConfines.weaken fun l hFresh =>
      ⟨Nat.le_of_succ_le hFresh.1, hFresh.2⟩

/- A temporary that is defined later is not used. -/
theorem avoids
    {n : Nat}
    (h : b.Flow live code b')
    (hLive : b.Numbered live)
    (hLe : b.nextTemporary ≤ b'.nextTemporary)
    (hLater : b'.nextTemporary ≤ n) :
    Line.Avoids (Uses n) code := by
  intro i hMem hUse
  rcases h.used i hMem n hUse with hOld | ⟨-, hLt⟩
  · exact (hLive.grow hLe).not_mem hLater hOld
  · omega

/-
  One code behind another.  The second may use what is live
  behind the first, if the first offers it to the whole.
-/
theorem append
    (hEmits₁ : b.Emits reach given own₁ first b₁)
    (hEmits₂ : b₁.Emits reach given own₂ second b')
    (hKnown : Emits.Known given (own₁ ++ own₂) b)
    (hLive : b.Numbered live)
    (hFirst : b.Flow live first b₁)
    (hSecond : b₁.Flow later second b')
    (hOffered :
      ∀ n ∈ later, n ∈ live ∨
        (b.nextTemporary ≤ n ∧ n < b₁.nextTemporary ∧
          Line.Confines (Defines n) (Uses n) (b.Fresh b')
            (first ++ second))) :
    b.Flow live (first ++ second) b' := by
  have hLe₁ := hEmits₁.dests_eq.1
  have hLe₂ := hEmits₂.dests_eq.1
  have hLabels₁ := hEmits₁.labels_le
  have hLabels₂ := hEmits₂.labels_le
  have hKnown₁ : Emits.Known given own₁ b :=
    hKnown.restrict fun l hMem =>
      List.mem_append_left _ hMem
  have hKnown₂ : Emits.Known given own₂ b :=
    hKnown.restrict fun l hMem =>
      List.mem_append_right _ hMem
  constructor
  case used =>
    intro i hMem n hUse
    rcases List.mem_append.mp hMem with hIn | hIn
    · exact (hFirst.used i hIn n hUse).imp_right
        fun hOwn => by omega
    · rcases hSecond.used i hIn n hUse with hLater | hOwn
      · rcases hOffered n hLater with hOld | ⟨hLe, hLt, -⟩
        · exact .inl hOld
        · exact .inr ⟨hLe, by omega⟩
      · exact .inr (by omega)
  case settled =>
    intro n hLe
    by_cases hOwn : n < b₁.nextTemporary
    · by_cases hLater : n ∈ later
      · rcases hOffered n hLater with
          hOld | ⟨-, -, hConfines⟩
        · exact absurd hOld (hLive.not_mem hLe)
        · exact .inr hConfines
      · -- the second code has no use of a temporary of the
        -- first
        have hAvoids : Line.Avoids (Uses n) second := by
          intro i hMem hUse
          rcases hSecond.used i hMem n hUse with hIn | hIn
          · exact hLater hIn
          · omega
        rcases hFirst.settled n hLe with hNone | hConfines
        · exact .inl
            (Line.avoids_append.mpr ⟨hNone, hAvoids⟩)
        · have hAround := hConfines.surround [] second
            Line.avoids_nil hAvoids fun l hTarget hFresh =>
              Emits.not_target_of_fresh hEmits₁ hEmits₂
                hKnown₂ hFresh hTarget
          rw [List.nil_append] at hAround
          exact .inr (hAround.weaken fun l hFresh =>
            ⟨hFresh.1,
              Nat.lt_of_lt_of_le hFresh.2 hLabels₂⟩)
    · -- nor has the first one of a temporary of the second
      have hLater : b₁.nextTemporary ≤ n :=
        Nat.le_of_not_lt hOwn
      have hAvoids := hFirst.avoids hLive hLe₁ hLater
      rcases hSecond.settled n hLater with hNone | hConfines
      · exact .inl (Line.avoids_append.mpr ⟨hAvoids, hNone⟩)
      · have hAround := hConfines.surround first [] hAvoids
          Line.avoids_nil fun l hTarget hFresh => by
            rw [List.append_nil] at hTarget
            have hLt := hEmits₁.target_lt hKnown₁ hTarget
            exact absurd hFresh.1 (Nat.not_le_of_lt hLt)
        rw [List.append_nil] at hAround
        exact .inr (hAround.weaken fun l hFresh =>
          ⟨Nat.le_trans hLabels₁ hFresh.1, hFresh.2⟩)

end Flow

/- What the first code offers is confined to the whole. -/
theorem Offers.confined
    (hOffers : b.Offers live first b₁ result)
    (hEmits : b.Emits reach given [] (first ++ second) b') :
    ∀ n ∈ result ++ live, n ∈ live ∨
      (b.nextTemporary ≤ n ∧ n < b₁.nextTemporary ∧
        Line.Confines (Defines n) (Uses n) (b.Fresh b')
          (first ++ second)) := by
  refine List.forall_mem_append.mpr
    ⟨?_, fun n hMem => .inl hMem⟩
  intro n hMem
  refine (hOffers n hMem).imp_right
    fun ⟨hLe, hLt, hOpens⟩ => ?_
  exact ⟨hLe, hLt, hEmits.confines (hOpens.append second)⟩

/- Behind code that leaves nowhere, offers of both count. -/
theorem Offers.append
    {more : List Nat}
    (hFirst : b.Offers live first b₁ result)
    (hSecond : b₁.Offers (result ++ live) second b' more)
    (hLe₁ : b.nextTemporary ≤ b₁.nextTemporary)
    (hLe₂ : b₁.nextTemporary ≤ b'.nextTemporary)
    (hAvoids :
      ∀ n, b₁.nextTemporary ≤ n →
        Line.Avoids (Uses n) first)
    (hClosed : ∀ l ∈ Line.targets first,
      l ∈ Line.labels first) :
    b.Offers live (first ++ second) b' more := by
  intro n hMem
  rcases hSecond n hMem with hEarlier | ⟨hLe, hLt, hOpens⟩
  · rcases List.mem_append.mp hEarlier with hResult | hOld
    · refine (hFirst n hResult).imp_right
        fun ⟨hLe, hLt, hOpens⟩ => ?_
      exact ⟨hLe, Nat.lt_of_lt_of_le hLt hLe₂,
        hOpens.append second⟩
    · exact .inl hOld
  · exact .inr ⟨Nat.le_trans hLe₁ hLe, hLt,
      hOpens.prepend (hAvoids n hLe) hClosed⟩

variable {onTrue onFalse done : Label}

/- A joint leaves for its own labels and uses nothing. -/
theorem joint_eq
    (b : Builder)
    (onTrue onFalse done : Label) :
    ∃ front,
      b.joint onTrue onFalse done =
          front ++
            [.instruction
              (.merge b.nextTemporary onTrue onFalse)] ∧
        Line.labels front = [onTrue, onFalse, done] ∧
        (∀ l ∈ Line.targets front, l = onTrue ∨ l = done) ∧
        ∀ n, Line.Avoids (Uses n) front := by
  refine ⟨(if b.between then [] else
    [.instruction (.jump onTrue)]) ++
    [.label onTrue, .instruction (.jump done),
      .label onFalse, .instruction (.jump done),
        .label done],
    by simp [joint], ?_⟩
  cases b.between <;>
    simp [Line.Avoids, Uses, Line.targets,
      Instruction.targets,
      Instruction.temporaries, Instruction.operands,
      Value.allTemporaries]

theorem avoids_joint
    (b : Builder)
    (onTrue onFalse done : Label)
    (n : Nat) :
    Line.Avoids (Uses n) (b.joint onTrue onFalse done) := by
  rcases b.joint_eq onTrue onFalse done with
    ⟨front, hEq, -, -, hNone⟩
  rw [hEq]
  refine Line.avoids_append.mpr ⟨hNone n, ?_⟩
  simp [Line.Avoids, Uses, Instruction.temporaries,
    Instruction.operands, Value.allTemporaries]

/- A choice whose outcomes come together again. -/
theorem Flow.join
    (hTrue : b.reserve.1 = onTrue)
    (hFalse : b.reserve.2.reserve.1 = onFalse)
    (hDone : b.reserve.2.reserve.2.reserve.1 = done)
    (h : Flow live b.reserve.2.reserve.2.reserve.2
      code b') :
    b.Flow live (code ++ b'.joint onTrue onFalse done)
      (b'.join onTrue onFalse done) := by
  constructor
  case used =>
    intro i hMem n hUse
    rcases List.mem_append.mp hMem with hIn | hIn
    · refine (h.used i hIn n hUse).imp_right fun hOwn => ?_
      exact ⟨hOwn.1, Nat.lt_succ_of_lt hOwn.2⟩
    · exact absurd hUse
        (b'.avoids_joint onTrue onFalse done n i hIn)
  case settled =>
    intro n hLe
    have hAfter := b'.avoids_joint onTrue onFalse done n
    rcases h.settled n hLe with hNone | hConfines
    · exact .inl (Line.avoids_append.mpr ⟨hNone, hAfter⟩)
    · -- the labels of the joint were handed out before
      have hAround := hConfines.surround []
        (b'.joint onTrue onFalse done)
          Line.avoids_nil hAfter
        fun l hTarget hFresh => by
          rcases Emits.numbers_of_reserve hTrue hFalse
            hDone with
            ⟨hT, -, hD⟩
          have hGe := hFresh.1
          simp only [reserve] at hGe
          rcases Emits.targets_joint hTarget with
            rfl | rfl <;> omega
      rw [List.nil_append] at hAround
      refine .inr (hAround.weaken fun l hFresh => ?_)
      have hGe := hFresh.1
      simp only [reserve] at hGe
      exact ⟨by omega, hFresh.2⟩

/- The outcome is handed on. -/
theorem Offers.join
    {slots : List String}
    (hEmits :
      b₁.Emits ⟨slots, false⟩ [onTrue, onFalse] [] code b')
    (h : Flow live b₁ code b')
    (hLive : b₁.Numbered live)
    (hStart : b₁.nextTemporary = b.nextTemporary) :
    b.Offers live (code ++ b'.joint onTrue onFalse done)
      (b'.join onTrue onFalse done) [b'.nextTemporary] := by
  intro n hMem
  rcases List.mem_singleton.mp hMem with rfl
  have hLe := hEmits.dests_eq.1
  rcases b'.joint_eq onTrue onFalse done with
    ⟨front, hJoint, hLabels, hTargets, hNone⟩
  rw [hStart] at hLe
  refine .inr ⟨hLe, Nat.lt_succ_self _,
    code ++ front, .merge b'.nextTemporary onTrue onFalse,
      [],
    by rw [hJoint, List.append_assoc], rfl, ?_, ?_, ?_⟩
  · simp [Uses, Instruction.temporaries,
      Instruction.operands, Value.allTemporaries]
  · exact Line.avoids_append.mpr
      ⟨h.avoids hLive (hStart ▸ hLe) (Nat.le_refl _),
        hNone _⟩
  · intro l hTarget
    rw [Line.labels_append, List.mem_append, hLabels]
    rw [Line.targets_append, List.mem_append] at hTarget
    rcases hTarget with hIn | hIn
    · rcases hEmits.placed_of_target hIn with
        hGiven | hExit | hLabel
      · simp only [List.mem_cons, List.not_mem_nil,
          or_false] at hGiven ⊢
        rcases hGiven with rfl | rfl <;> simp
      · cases hExit.1
      · exact .inl hLabel
    · rcases hTargets l hIn with rfl | rfl <;> simp

end Builder

------------------------------------------------------------
-- Steps
------------------------------------------------------------

namespace Build

open Builder (Reach)

variable {α β : Type} {reach : Reach} {slots : List String}
variable {given own own₁ own₂ : List Label}
variable {live later : List Nat} {result : α → List Nat}

/-
  A step that succeeds emits code within its bounds, in
  which temporaries are defined before they are used, and
  hands on the temporaries of its result.
-/
def Flows
    (reach : Reach)
    (given own : List Label)
    (live : List Nat)
    (result : α → List Nat)
    (x : Build α) : Prop :=
  ∀ ⦃b : Builder⦄ ⦃a : α⦄ ⦃b' : Builder⦄,
    b.Numbered live →
    Builder.Emits.Known given own b →
    x b = .ok a b' →
    ∃ code, b.Emits reach given own code b' ∧
      b.Flow live code b' ∧ b.Offers live code b' (result a)

/- The result of a step that hands on no temporaries. -/
def nothing (_ : α) : List Nat :=
  []

namespace Flows

variable {x : Build α} {f : α → Build β} {l : Label}

/- A step that uses what is live, and hands on no more. -/
theorem ofSteps
    (hEmits : Emits reach given own x)
    (hSteps : Steps (UsesOnly live) x)
    (hResult :
      ∀ b a b', x b = .ok a b' → ∀ n ∈ result a, n ∈ live) :
    Flows reach given own live result x := by
  intro b a b' hLive _ hOk
  rcases hEmits hOk with ⟨code, hCode⟩
  have hWritten := hSteps b
  rw [after, hOk] at hWritten
  exact ⟨code, hCode, .ofSteps hCode hWritten hLive,
    .ofLive (hResult b a b' hOk)⟩

/- The same where nothing is handed on. -/
theorem ofControl
    (hEmits : Emits reach given own x)
    (hSteps : Steps (UsesOnly live) x) :
    Flows reach given own live nothing x :=
  ofSteps hEmits hSteps fun _ _ _ _ => by simp [nothing]

theorem pure
    {a : α}
    (hResult : ∀ n ∈ result a, n ∈ live) :
    Flows reach given [] live result
      (pure a : Build α) := by
  refine ofSteps (.pure a) (.pure a) ?_
  intro b a' b' hOk
  rcases Step.pure_eq_ok.mp hOk with ⟨rfl, -⟩
  exact hResult

theorem throw
    (fault : Fault) :
    Flows reach given own live result
      (throw fault : Build α) := by
  intro b a b' _ _ hOk
  cases hOk

/- More may be live. -/
theorem weaken
    (h : Flows reach given own live result x)
    (hMore : ∀ n ∈ live, n ∈ later) :
    Flows reach given own later result x := by
  intro b a b' hLive hKnown hOk
  have hLess : b.Numbered live := fun n hMem =>
    hLive n (hMore n hMem)
  rcases h hLess hKnown hOk with
    ⟨code, hEmits, hFlow, hOffers⟩
  exact ⟨code, hEmits, hFlow.weaken hMore,
    fun n hMem => (hOffers n hMem).imp_left (hMore n)⟩

/- Loops may be left around code that leaves none. -/
theorem leaving
    (h : Flows ⟨reach.slots, false⟩ given own live
      result x) :
    Flows reach given own live result x := by
  intro b a b' hLive hKnown hOk
  rcases h hLive hKnown hOk with ⟨code, hEmits, hFlow⟩
  exact ⟨code,
    hEmits.widen (fun _ hMem => hMem) (fun _ hMem => hMem)
    (by simp), hFlow⟩

/-
  Code that leaves nowhere supplies the code behind it with
  the temporaries of its result.
-/
theorem supplyOf
    {more : β → List Nat}
    (hFirst : Flows ⟨slots, false⟩ [] [] live result x)
    (hSecond :
      ∀ a, (∃ b b', x b = .ok a b') →
        Flows ⟨slots, false⟩ given [] (result a ++ live)
          more (f a)) :
    Flows ⟨slots, false⟩ given [] live more (x >>= f) := by
  intro b a b' hLive hKnown hOk
  rcases Step.bind_eq_ok.mp hOk with ⟨a₁, b₁, hX, hF⟩
  have hInner : Builder.Emits.Known [] [] b :=
    ⟨by simp, hKnown.own, hKnown.exits⟩
  rcases hFirst hLive hInner hX with
    ⟨first, hEmits₁, hFlow₁, hOffers₁⟩
  have hClosed := hEmits₁.closed rfl
  have hLe₁ := hEmits₁.dests_eq.1
  have hWide : b.Emits ⟨slots, false⟩ given [] first b₁ :=
    hEmits₁.widen (by simp) (fun _ hMem => hMem) id
  rcases hSecond a₁ ⟨b, b₁, hX⟩
      (hOffers₁.numbered hLive hLe₁)
      (hKnown.later hWide (by simp)) hF with
    ⟨second, hEmits₂, hFlow₂, hOffers₂⟩
  have hEmits := hWide.andThen hEmits₂
  refine ⟨first ++ second, hEmits, ?_, ?_⟩
  · exact .append hWide hEmits₂ hKnown hLive hFlow₁ hFlow₂
      (hOffers₁.confined hEmits)
  · exact hOffers₁.append hOffers₂ hLe₁ hEmits₂.dests_eq.1
      (fun n hLe => hFlow₁.avoids hLive hLe₁ hLe) hClosed

/- Code that hands on nothing, one step behind the other. -/
theorem bindOf
    (hFirst : Flows reach given own₁ live nothing x)
    (hSecond : ∀ a,
      Flows reach given own₂ live nothing (f a)) :
    Flows reach given (own₁ ++ own₂) live nothing
      (x >>= f) := by
  intro b a b' hLive hKnown hOk
  rcases Step.bind_eq_ok.mp hOk with ⟨a₁, b₁, hX, hF⟩
  have hKnown₁ : Builder.Emits.Known given own₁ b :=
    hKnown.restrict fun l hMem =>
      List.mem_append_left _ hMem
  rcases hFirst hLive hKnown₁ hX with
    ⟨first, hEmits₁, hFlow₁, -⟩
  have hLive₁ := hLive.grow hEmits₁.dests_eq.1
  have hKnown₂ : Builder.Emits.Known given own₂ b₁ :=
    hKnown.later hEmits₁ fun l hMem =>
      List.mem_append_right _ hMem
  rcases hSecond a₁ hLive₁ hKnown₂ hF with
    ⟨second, hEmits₂, hFlow₂, -⟩
  exact ⟨first ++ second, hEmits₁.trans hEmits₂,
    .append hEmits₁ hEmits₂ hKnown hLive hFlow₁ hFlow₂
      fun n hMem => .inl hMem, by
        simp [Builder.Offers, nothing]⟩

theorem perm
    (h : Flows reach given own₁ live result x)
    (hPerm : own₁.Perm own₂) :
    Flows reach given own₂ live result x := by
  intro b a b' hLive hKnown hOk
  have hKnown' : Builder.Emits.Known given own₁ b :=
    hKnown.restrict fun l hMem => hPerm.mem_iff.mp hMem
  rcases h hLive hKnown' hOk with ⟨code, hEmits, hFlow⟩
  exact ⟨code, hEmits.perm hPerm, hFlow⟩

/- A label handed out is placed where it is needed. -/
theorem labelIf
    (needed : Bool)
    {f : Label → Build α}
    (h :
      ∀ l, Flows reach (l.kept needed ++ given)
        (l.kept needed ++ own) live result (f l)) :
    Flows reach given own live result
      (Build.label >>= f) := by
  intro b a b' hLive hKnown hOk
  rcases label_bind_eq_ok.mp hOk with ⟨_, rfl, hRest⟩
  rcases h _ (b := b.reserve.2) hLive (hKnown.kept needed)
    hRest with
    ⟨code, hEmits, hFlow, hOffers⟩
  refine ⟨code, ?_, hFlow.ofReserve, hOffers⟩
  cases needed with
  | true => exact .placed hEmits
  | false => exact .spare hEmits

theorem place
    (hGiven : l ∈ given) :
    Flows reach given [l] live nothing (Build.place l) :=
  ofControl (.place hGiven) (.place l)

theorem jump
    (hGiven : l ∈ given) :
    Flows reach given [] live nothing (Build.jump l) :=
  ofControl (.jump hGiven) (.jump l)

theorem branch
    {condition : Value}
    {onTrue onFalse : Option Label}
    (hUses : ∀ n ∈ condition.temporaries, n ∈ live)
    (hTrue : ∀ l ∈ onTrue, l ∈ given)
    (hFalse : ∀ l ∈ onFalse, l ∈ given) :
    Flows reach given [] live nothing
      (Build.branch condition onTrue onFalse) := by
  refine ofControl (.branch hTrue hFalse)
    (.branch fun t f => ?_)
  exact Instruction.usesOnly_iff.mpr
    (by simpa [Instruction.operands] using hUses)

theorem insideLoop
    {exit : Label}
    {body : Build α}
    (hExit : exit ∈ given)
    (h : Flows reach given own live result body) :
    Flows reach given own live result
      (Build.insideLoop exit body) := by
  intro b a b' hLive hKnown hOk
  rcases insideLoop_eq_ok.mp hOk with ⟨b₁, hBody, rfl⟩
  rcases h
      (b := { b with loopExits := exit :: b.loopExits })
        hLive
      (hKnown.inside hExit) hBody with
        ⟨code, hEmits, hFlow, hOffers⟩
  exact ⟨code, .inside hExit hEmits,
    ⟨hFlow.used, hFlow.settled⟩, hOffers⟩

/- A temporary is defined from live ones, and handed on. -/
theorem define
    {t : Ty}
    {i : Nat → Instruction}
    (hSimple : ∀ n, (i n).IsSimple)
    (hDest : ∀ n, (i n).dest? = some n)
    (hSlots : ∀ n, ∀ slot ∈ (i n).accessed?, slot ∈ slots)
    (hUses : ∀ n, UsesOnly live (i n)) :
    Flows ⟨slots, false⟩ [] [] live Value.temporaries
      (Build.define t i) := by
  intro b a b' hLive _ hOk
  have hSteps := Steps.define (t := t) hUses b
  rw [after, hOk] at hSteps
  cases hOk
  rcases Builder.Emits.reopen ⟨slots, false⟩ [] b with
    ⟨opened, hReopen⟩
  have hOpened :
      Line.Avoids (Uses b.nextTemporary) opened :=
    (Builder.Flow.ofSteps hReopen .reopen hLive).avoids
      hLive hReopen.dests_eq.1
      (Nat.le_of_eq (Builder.Emits.nextTemporary_reopen b))
  have hEmits := hReopen.andThen
    (Builder.Emits.define_reopen (hSimple _) (hDest _)
      (hSlots _))
  refine ⟨_, hEmits, .ofSteps hEmits hSteps hLive, ?_⟩
  intro n hMem
  rcases List.mem_singleton.mp hMem with rfl
  refine .inr
    ⟨Nat.le_refl _, ?_, opened, _, [], rfl, hDest _, ?_,
    hOpened, hReopen.closed rfl⟩
  · have hNext :=
      Builder.Emits.nextTemporary_reopen b.number.2
    exact Nat.lt_of_lt_of_eq (Nat.lt_succ_self _) hNext.symm
  · exact fun hUse =>
      hLive.not_mem (Nat.le_refl _) (hUses _ _ hUse)

end Flows

end Build

end Bracketry
