import Bracketry.Proofs.Discipline.Instances
import Mathlib.Data.List.Nodup

/-
  This file shows that writing only adds to a state, whether
  it succeeds or ends in a fault.

  What is written stays in front of all that follows,
  counters do not go back, slots stay allocated, and the
  loops around are the same again.  The code that is added
  places only labels handed out for it, each at most once,
  and defines exactly the temporaries handed out for it.
-/

namespace Bracketry

open Instruction (Marked)

namespace Builder

/-
  From the first state to the second, labels and temporaries
  are handed out in this order.
-/
inductive Hands :
    Builder → List Label → List Nat → Builder → Prop
| label {b : Builder} :
    Hands b [b.reserve.1] [] b.reserve.2
| temporary {b : Builder} :
    Hands b [] [b.number.1] b.number.2
| kept {b b' : Builder} :
    b'.nextLabel = b.nextLabel →
      b'.nextTemporary = b.nextTemporary →
    Hands b [] [] b'
| trans {b b₁ b₂ : Builder} {labels more : List Label}
    {numbers others : List Nat} :
    Hands b labels numbers b₁ → Hands b₁ more others b₂ →
    Hands b (labels ++ more) (numbers ++ others) b₂

variable {b b' : Builder} {labels : List Label}
variable {numbers : List Nat}

/- What is handed out is numbered in a row. -/
theorem Hands.eq_range
    (hHands : b.Hands labels numbers b') :
    labels.map Label.number =
      List.range' b.nextLabel labels.length ∧
      b'.nextLabel = b.nextLabel + labels.length ∧
      numbers = List.range' b.nextTemporary numbers.length ∧
      b'.nextTemporary =
        b.nextTemporary + numbers.length := by
  induction hHands with
  | label => exact ⟨rfl, rfl, rfl, rfl⟩
  | temporary => exact ⟨rfl, rfl, rfl, rfl⟩
  | kept hLabels hTemporaries =>
      exact ⟨rfl, hLabels, rfl, hTemporaries⟩
  | trans _ _ ih₁ ih₂ =>
      rcases ih₁ with ⟨hLabels₁, hNext₁, hNumbers₁, hLast₁⟩
      rcases ih₂ with ⟨hLabels₂, hNext₂, hNumbers₂, hLast₂⟩
      rw [hNext₁] at hLabels₂ hNext₂
      rw [hLast₁] at hNumbers₂ hLast₂
      refine ⟨?_, ?_, ?_, ?_⟩
      · rw [List.map_append, hLabels₁, hLabels₂,
          List.length_append, List.range'_append_1]
      · rw [hNext₂, List.length_append, Nat.add_assoc]
      · rw [List.length_append, ← List.range'_append_1,
          ← hNumbers₁, ← hNumbers₂]
      · rw [hLast₂, List.length_append, Nat.add_assoc]

theorem Hands.nodup
    (hHands : b.Hands labels numbers b') :
    labels.Nodup ∧ numbers.Nodup := by
  rcases hHands.eq_range with ⟨hLabels, -, hNumbers, -⟩
  constructor
  · exact List.Nodup.of_map Label.number
      (hLabels ▸ List.nodup_range')
  · exact hNumbers ▸ List.nodup_range'

theorem Hands.mem_labels
    {l : Label}
    (hHands : b.Hands labels numbers b')
    (hFrom : b.nextLabel ≤ l.number)
    (hTo : l.number < b'.nextLabel) :
    l ∈ labels := by
  rcases hHands.eq_range with ⟨hLabels, hNext, -, -⟩
  have hMem : l.number ∈ labels.map Label.number := by
    rw [hLabels, List.mem_range'_1]
    omega
  rcases List.mem_map.mp hMem with ⟨k, hIn, hSame⟩
  cases k
  cases l
  cases hSame
  exact hIn

/- The code defines just the temporaries handed out. -/
def Numbers (b b' : Builder) : Prop :=
  ∃ labels code,
    b'.lines.toList = b.lines.toList ++ code ∧
      b.Hands labels (Line.dests code) b'

/- A label may be handed out, for a dead block. -/
theorem hands_append
    (b : Builder)
    (i : Instruction) :
    ∃ labels code,
      (b.append i).lines.toList = b.lines.toList ++ code ∧
        Line.dests code = i.dest?.toList ∧
        b.Hands labels [] (b.append i) := by
  rw [append, Emits.reopen_eq]
  cases b.between with
  | true =>
      exact ⟨[b.reserve.1],
        [.label b.reserve.1, .instruction i],
        by simp [write], by simp [Line.dest?],
        Hands.label.trans (.kept rfl rfl)⟩
  | false =>
      exact ⟨[], [.instruction i], by simp [write],
        by simp [Line.dest?], .kept rfl rfl⟩

theorem Numbers.append
    {i : Instruction}
    (hDest : i.dest? = none) :
    b.Numbers (b.append i) := by
  rcases b.hands_append i with
    ⟨labels, code, hLines, hDests, hHands⟩
  rw [hDest] at hDests
  exact ⟨labels, code, hLines, hDests ▸ hHands⟩

theorem Numbers.carries :
    Carries Marked Numbers where
  refl := fun b =>
    ⟨[], [], (List.append_nil _).symm, .kept rfl rfl⟩
  trans := by
    rintro b b₁ b₂ ⟨labels, code, hLines, hHands⟩
      ⟨more, rest, hMore, hOthers⟩
    refine ⟨labels ++ more, code ++ rest, ?_, ?_⟩
    · rw [hMore, hLines, List.append_assoc]
    · rw [Line.dests_append]
      exact hHands.trans hOthers
  reserve :=
    fun b => ⟨_, [], (List.append_nil _).symm, .label⟩
  place := by
    intro b l
    unfold place
    cases b.between with
    | true =>
        exact ⟨[], [.label l], by simp [write],
          .kept rfl rfl⟩
    | false =>
        exact ⟨[], [.instruction (.jump l), .label l],
          by simp [write], .kept rfl rfl⟩
  jump := by
    intro b l
    unfold jump
    split
    · exact ⟨[], [], (List.append_nil _).symm,
        .kept rfl rfl⟩
    · exact .append rfl
  append := fun _ hDest => .append hDest
  define := by
    intro b i _ hDest
    rcases b.number.2.hands_append i with
      ⟨labels, code, hLines, hDests, hHands⟩
    rw [hDest] at hDests
    exact ⟨labels, code, hLines,
      hDests ▸ Hands.temporary.trans hHands⟩
  note := fun b _ =>
    ⟨[], [], (List.append_nil _).symm, .kept rfl rfl⟩
  exits := fun b _ =>
    ⟨[], [], (List.append_nil _).symm, .kept rfl rfl⟩

/- The text of what is written. -/
def text (b : Builder) : String :=
  String.join (b.lines.toList.map Line.text)

/-
  The second state adds to the first.  Whatever was handed
  out before the first state, since any state `start`, is
  different from what is handed out between the two.
-/
structure Extends (b b' : Builder) : Prop where
  text : ∃ more, b'.text = b.text ++ more
  nextLabel : b.nextLabel ≤ b'.nextLabel
  nextTemporary : b.nextTemporary ≤ b'.nextTemporary
  fresh : ∃ labels temporaries code,
    b.Hands labels temporaries b' ∧
      b'.lines.toList = b.lines.toList ++ code ∧
      (Line.labels code).Nodup ∧ Line.labels code ⊆ labels ∧
      Line.dests code = temporaries ∧
      ∀ start earlier numbers, Hands start earlier numbers
        b → (earlier ++ labels).Nodup ∧
          (numbers ++ temporaries).Nodup
  allocated : ∀ slot ∈ b.allocated, slot ∈ b'.allocated
  loopExits : b'.loopExits = b.loopExits

/- Code that places no outer label places its own. -/
theorem Writes.labels_subset
    {code : List Line}
    (hWrites : b.Writes [] b')
    (hHands : b.Hands labels numbers b')
    (hLines : b'.lines.toList = b.lines.toList ++ code) :
    (Line.labels code).Nodup ∧
      Line.labels code ⊆ labels := by
  have hPlaced : ∀ l,
      b'.placed l =
        b.placed l + (Line.labels code).count l := by
    intro l
    rw [placed, placed, hLines, Line.labels_append,
      List.count_append]
  constructor
  · rw [List.nodup_iff_count_le_one]
    intro l
    have hSum := hPlaced l
    by_cases hOld : l.number < b.nextLabel
    · have hCount := hWrites.old l hOld
      rw [List.count_nil] at hCount
      omega
    · have hCount := hWrites.fresh l (Nat.le_of_not_lt hOld)
      omega
  · intro l hMem
    have hSum := hPlaced l
    have hSome := List.count_pos_iff.mpr hMem
    refine hHands.mem_labels ?_ ?_
    · by_contra hOld
      have hCount := hWrites.old l (Nat.lt_of_not_le hOld)
      rw [List.count_nil] at hCount
      omega
    · by_contra hLater
      have hCount :=
        hWrites.unused l (Nat.le_of_not_lt hLater)
      omega

theorem Extends.of_writes
    (hWrites : b.Writes [] b')
    (hNumbers : b.Numbers b') :
    b.Extends b' := by
  rcases hNumbers with ⟨labels, code, hLines, hHands⟩
  rcases hWrites.labels_subset hHands hLines with
    ⟨hOnce, hOwn⟩
  refine ⟨⟨String.join (code.map Line.text), ?_⟩,
    hWrites.labels, hWrites.temporaries, ?_, fun _ hMem =>
      hWrites.slots.subset hMem,
    hWrites.exits⟩
  · rw [Builder.text, hLines, List.map_append,
      String.join_append]
    rfl
  · refine ⟨labels, _, code, hHands, hLines, hOnce,
      hOwn, rfl, ?_⟩
    exact fun start earlier numbers hEarlier =>
      (hEarlier.trans hHands).nodup

/-
  Whatever expression, place or statement is written, with
  whatever types at its nodes, in whatever state, and
  whether this succeeds or ends in a fault: it only adds to
  the state.  The trees of the language are written in the
  same way.
-/
theorem writing_extends
    (b : Builder) :
    (∀ e : RawExpr, b.Extends (e.lower.reduce.after b)) ∧
    (∀ (e : RawExpr) (target : Ty),
      b.Extends ((e.lower.convert target).after b)) ∧
    (∀ (value : Value) (target : Ty) (line : Nat),
      b.Extends
        ((Build.convertValue value target line).after b)) ∧
    (∀ (e : RawExpr) (onTrue onFalse : Option Label),
      b.Extends
        ((e.lower.branches onTrue onFalse).after b)) ∧
    (∀ place : RawPlace,
      b.Extends (place.address.after b)) ∧
    (∀ (st : RawStmt) (before after : Label),
      b.Extends ((st.lower before after).after b)) ∧
    (∀ e : Expr, e.raw.lower = e.lower) ∧
    (∀ place : Place, place.raw.address = place.address) ∧
    ∀ st : Stmt, st.raw.lower = st.lower := by
  have hExtends : ∀ {α : Type} {x : Build α},
      Build.Writes [] x →
        (∀ b : Builder, b.Numbers (x.after b)) →
          b.Extends (x.after b) :=
    fun hWrites hNumbers =>
      .of_writes (hWrites b (reserved_nil b)) (hNumbers b)
  have hCarries := Numbers.carries
  refine ⟨fun e => ?_, fun e target => ?_,
    fun value target line => ?_,
    fun e onTrue onFalse => ?_, fun place => ?_,
    fun st before after => ?_, fun e => e.raw_eq.1,
    fun place => place.raw_eq.1, fun st => st.raw_eq.1⟩
  · exact hExtends e.lower_writes.reduce
      (hCarries.lowerExpr e).reduce
  · exact hExtends (e.lower_writes.convert target)
      ((hCarries.lowerExpr e).convert target)
  · exact hExtends (.convertValue value target line)
      (hCarries.convertValue value target line)
  · exact hExtends (e.lower_writes.branches onTrue onFalse)
      ((hCarries.lowerExpr e).branches onTrue onFalse)
  · exact hExtends place.address_writes
      (hCarries.address place)
  · exact hExtends (Stmt.raw_writes st before after)
      (hCarries.lowerStmt st before after)

end Builder

end Bracketry
