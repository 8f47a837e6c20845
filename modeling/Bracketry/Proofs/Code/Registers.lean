import Bracketry.Proofs.Code.Closure
import Bracketry.Proofs.Code.Typing

/-
  This file lists the names that emitted code gives to
  blocks and registers, and shows that no name is given
  twice.

  Temporaries are numbered in the order of the lines that
  define them, without gaps, and a slot is allocated only if
  it was not allocated before.
-/

namespace Bracketry

open Value (register)

namespace Label

theorem target_inj
    {l k : Label}
    (hEq : l.target = k.target) :
    l = k := by
  have hNumber : l.number = k.number := by
    apply Identifier.number_inj
    exact (String.append_right_inj _).mp
      ((String.append_right_inj _).mp hEq)
  cases l
  cases k
  exact congrArg Label.mk hNumber

/- Labels have no dots in their names; registers have. -/
theorem dot_not_mem_target
    (l : Label) :
    '.' ∉ l.target.toList := by
  rw [target, text, String.toList_append,
    String.toList_append,
    List.mem_append, List.mem_append, not_or, not_or]
  exact ⟨by decide, by decide,
    Identifier.dot_not_mem_number l.number⟩

theorem target_ne_dotted
    (l : Label)
    (first second : String) :
    l.target ≠ first ++ "." ++ second := by
  intro hEq
  have hDot := l.dot_not_mem_target
  rw [hEq] at hDot
  simp at hDot

end Label

namespace Line

variable (line : Line)

/- The number of the temporary that a line defines. -/
def dest? : Line → Option Nat
| .label _ => none
| .instruction i => i.dest?

/- The temporaries that lines define, in order. -/
def dests (lines : List Line) : List Nat :=
  lines.filterMap dest?

/- The slot that a line allocates. -/
def slot? : Line → Option String
| .instruction (.allocate slot _) => some slot
| _ => none

/- The slots that lines allocate, in order. -/
def slots (lines : List Line) : List String :=
  lines.filterMap slot?

/- The name that a line gives. -/
def name? : Line → Option String
| .label l => some l.target
| .instruction (.allocate slot _) => some slot
| .instruction i => i.dest?.map register

/- The names that lines give, in order. -/
def names (lines : List Line) : List String :=
  lines.filterMap name?

@[simp] theorem dests_nil :
    dests [] = [] := rfl

@[simp] theorem slots_nil :
    slots [] = [] := rfl

@[simp] theorem dests_cons
    (rest : List Line) :
    dests (line :: rest) = line.dest?.toList ++
      dests rest := by
  cases hDest : line.dest? <;> simp [dests, hDest]

@[simp] theorem slots_cons
    (rest : List Line) :
    slots (line :: rest) = line.slot?.toList ++
      slots rest := by
  cases hSlot : line.slot? <;> simp [slots, hSlot]

@[simp] theorem names_cons
    (rest : List Line) :
    names (line :: rest) = line.name?.toList ++
      names rest := by
  cases hName : line.name? <;> simp [names, hName]

@[simp] theorem dests_append
    (first second : List Line) :
    dests (first ++ second) = dests first ++ dests second :=
  List.filterMap_append

@[simp] theorem slots_append
    (first second : List Line) :
    slots (first ++ second) = slots first ++ slots second :=
  List.filterMap_append

/- Every name is that of a label, a slot or a temporary. -/
theorem names_perm
    (lines : List Line) :
    (names lines).Perm
      ((labels lines).map Label.target ++
        (slots lines ++ (dests lines).map register)) := by
  induction lines with
  | nil => exact .nil
  | cons line rest ih =>
      cases line with
      | label l => exact ih.cons _
      | instruction i =>
          cases hDest : i.dest? with
          | none =>
              cases i with
              | allocate slot t =>
                  exact (ih.cons slot).trans
                    List.perm_middle.symm
              | _ =>
                  simpa [name?, slot?, dest?, hDest]
                    using ih
          | some n =>
              have hSlot : slot? (.instruction i) =
                  none := by
                cases i <;>
                  simp_all [slot?, Instruction.dest?]
              have hName :
                  name? (.instruction i) =
                    some (register n) := by
                cases i <;>
                  simp_all [name?, Instruction.dest?]
              have hMiddle :
                  (register n :: names rest).Perm
                    ((labels rest).map Label.target ++
                      (slots rest ++
                        register n ::
                          (dests rest).map register)) := by
                refine (ih.cons _).trans ?_
                rw [← List.append_assoc,
                  ← List.append_assoc]
                exact List.perm_middle.symm
              simpa [hName, hSlot, dest?, hDest]
                using hMiddle

/- Names of different kinds are different. -/
theorem names_nodup
    {lines : List Line}
    (hLabels : (labels lines).Nodup)
    (hSlots : (slots lines).Nodup)
    (hDests : (dests lines).Nodup)
    (hApart :
      ∀ slot ∈ slots lines,
        (∀ n, slot ≠ register n) ∧
          ∀ l : Label, slot ≠ l.target) :
    (names lines).Nodup := by
  have hTargets : ((labels lines).map Label.target).Nodup :=
    List.pairwise_map.mpr
      (hLabels.imp fun hNe hEq =>
        hNe (Label.target_inj hEq))
  have hRegisters : ((dests lines).map register).Nodup :=
    List.pairwise_map.mpr
      (hDests.imp fun hNe hEq =>
        hNe (Value.register_inj hEq))
  refine (names_perm lines).nodup_iff.mpr ?_
  refine List.nodup_append.mpr ⟨hTargets, ?_, ?_⟩
  · refine List.nodup_append.mpr ⟨hSlots, hRegisters, ?_⟩
    intro slot hSlot name hName
    rcases List.mem_map.mp hName with ⟨n, -, rfl⟩
    exact (hApart slot hSlot).1 n
  · intro target hTarget name hName
    rcases List.mem_map.mp hTarget with ⟨l, -, rfl⟩
    rcases List.mem_append.mp hName with hSlot | hTemporary
    · exact ((hApart name hSlot).2 l).symm
    · rcases List.mem_map.mp hTemporary with ⟨n, -, rfl⟩
      exact l.target_ne_dotted "%t" (toString n)

end Line

namespace Builder

theorem dests_joint
    (b : Builder)
    (onTrue onFalse done : Label) :
    Line.dests (b.joint onTrue onFalse done) =
      [b.nextTemporary] := by
  cases hBetween : b.between <;>
    simp [joint, hBetween, Line.dest?, Instruction.dest?]

theorem slots_joint
    (b : Builder)
    (onTrue onFalse done : Label) :
    Line.slots (b.joint onTrue onFalse done) = [] := by
  cases hBetween : b.between <;>
    simp [joint, hBetween, Line.slot?]

namespace Emits

variable {reach : Reach} {given own : List Label}
variable {b b' : Builder} {code : List Line}

/- Temporaries are numbered in order, without gaps. -/
theorem dests_eq
    (h : Emits reach given own b code b') :
    b.nextTemporary ≤ b'.nextTemporary ∧
      Line.dests code =
        List.range' b.nextTemporary
          (b'.nextTemporary - b.nextTemporary) := by
  induction h with
  | @trans _ _ _ b b₁ b₂ _ _ _ _ ih₁ ih₂ =>
      rcases ih₁ with ⟨hLe₁, hDests₁⟩
      rcases ih₂ with ⟨hLe₂, hDests₂⟩
      refine ⟨Nat.le_trans hLe₁ hLe₂, ?_⟩
      have hStart :
          b₁.nextTemporary =
            b.nextTemporary +
              (b₁.nextTemporary - b.nextTemporary) := by
                omega
      have hCount :
          b₂.nextTemporary - b.nextTemporary =
            (b₁.nextTemporary - b.nextTemporary) +
              (b₂.nextTemporary - b₁.nextTemporary) := by
                omega
      rw [Line.dests_append, hDests₁, hDests₂, hCount,
        ← List.range'_append_1, ← hStart]
  | perm _ _ ih => exact ih
  | placed _ ih => exact ih
  | spare _ ih => exact ih
  | inside _ _ ih => exact ih
  | simple _ _ hDest =>
      simp [Line.dest?, hDest, write]
  | define _ _ hDest =>
      simp [Line.dest?, hDest, number, write]
  | @merge _ b b' _ _ _ _ _ _ _ _ ih =>
      rcases ih with ⟨hLe, hDests⟩
      change b.nextTemporary ≤ b'.nextTemporary at hLe
      change _ =
        List.range' b.nextTemporary
          (b'.nextTemporary - b.nextTemporary) at hDests
      have hLast :
          b.nextTemporary +
            (b'.nextTemporary - b.nextTemporary) =
            b'.nextTemporary := by omega
      have hCount :
          b'.nextTemporary + 1 - b.nextTemporary =
            (b'.nextTemporary - b.nextTemporary) + 1 := by
              omega
      refine ⟨Nat.le_succ_of_le hLe, ?_⟩
      change _ =
        List.range' b.nextTemporary
          (b'.nextTemporary + 1 - b.nextTemporary)
      rw [Line.dests_append, hDests, dests_joint, hCount,
        List.range'_1_concat, hLast]
  | _ => simp [Line.dest?, Instruction.dest?, write]

/- Slots are allocated once, and only slots in reach. -/
theorem slots_eq
    (h : Emits reach given own b code b') :
    b'.allocated = (Line.slots code).reverse ++
      b.allocated ∧ (Line.slots code).Nodup ∧
      ∀ slot ∈ Line.slots code,
        slot ∈ reach.slots ∧ slot ∉ b.allocated := by
  have hSilent :
      ∀ {i : Instruction}, i.IsSimple →
        Line.slots [.instruction i] = [] := by
    intro i hSimple
    cases i with
    | allocate slot t => exact absurd hSimple id
    | _ => rfl
  induction h with
  | refl => simp
  | trans _ _ ih₁ ih₂ =>
      rcases ih₁ with ⟨hAllocated₁, hNodup₁, hIn₁⟩
      rcases ih₂ with ⟨hAllocated₂, hNodup₂, hIn₂⟩
      rw [hAllocated₁] at hAllocated₂ hIn₂
      rw [Line.slots_append]
      refine ⟨?_, ?_, ?_⟩
      · rw [hAllocated₂, List.reverse_append,
          List.append_assoc]
      · refine List.nodup_append.mpr ⟨hNodup₁, hNodup₂, ?_⟩
        rintro slot hFirst _ hSecond rfl
        exact (hIn₂ slot hSecond).2
          (List.mem_append_left _
            (List.mem_reverse.mpr hFirst))
      · refine List.forall_mem_append.mpr ⟨hIn₁, ?_⟩
        intro slot hSecond
        rcases hIn₂ slot hSecond with ⟨hReach, hNew⟩
        exact ⟨hReach,
          fun hOld => hNew (List.mem_append_right _ hOld)⟩
  | perm _ _ ih => exact ih
  | placed _ ih => exact ih
  | spare _ ih => exact ih
  | inside _ _ ih => exact ih
  | simple _ hSimple =>
      rw [hSilent hSimple]
      simp [write]
  | define _ hSimple =>
      rw [hSilent hSimple]
      simp [number, write]
  | allocate _ hNew hIn =>
      refine ⟨rfl, by simp [Line.slot?], ?_⟩
      exact List.forall_mem_singleton.mpr ⟨hIn, hNew⟩
  | merge _ _ _ _ ih =>
      rw [Line.slots_append, slots_joint, List.append_nil]
      exact ih
  | _ => simp [Line.slot?, write]

end Emits

end Builder

end Bracketry
