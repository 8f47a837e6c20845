import Bracketry.Proofs.Code.Closure

/-
  This file tells when every path through a code passes an
  instruction of one kind before it comes to an instruction
  of another kind, such as the allocation of a slot before
  an access to it.

  It does if all uses stand in a stretch of lines behind the
  opening instruction that no other line leaves for.

  Main declarations:
    * `Line.Opens` and `Line.escapes`
    * `Line.Opens.confines`
    * `Line.not_dominates_of_escapes`
-/

namespace Bracketry

namespace Line

variable {l : Label} {i j : Nat} {passed : List Nat}

/- Control may go from one line to another. -/
inductive Edge (code : List Line) : Nat → Nat → Prop
| label {i : Nat} {l : Label} :
    code[i]? = some (.label l) → Edge code i (i + 1)
| next {i : Nat} {instruction : Instruction} :
    code[i]? = some (.instruction instruction) →
    instruction.endsBlock = false → Edge code i (i + 1)
| leave {i j : Nat} {instruction : Instruction}
    {l : Label} :
      code[i]? = some (.instruction instruction) →
    l ∈ instruction.targets →
    code[j]? = some (.label l) → Edge code i j

/- A path from the first line, with the lines passed. -/
inductive Path (code : List Line) : List Nat → Nat → Prop
| entry : Path code [] 0
| step {passed : List Nat} {i j : Nat} :
    Path code passed i → Edge code i j →
      Path code (i :: passed) j

/- Every path to a use passes an opening. -/
def Dominates
    (opening use : Instruction → Prop)
    (code : List Line) : Prop :=
  ∀ passed i used,
    Path code passed i →
    code[i]? = some (.instruction used) → use used →
    ∃ j ∈ passed, ∃ first,
      code[j]? = some (.instruction first) ∧ opening first

/- No instruction of the lines is a use. -/
def Avoids
    (use : Instruction → Prop)
    (code : List Line) : Prop :=
  ∀ i, .instruction i ∈ code → ¬ use i

theorem avoids_nil :
    Avoids use [] :=
  fun _ hMem => absurd hMem List.not_mem_nil

theorem avoids_append
    {first second : List Line} :
    Avoids use (first ++ second) ↔
      Avoids use first ∧ Avoids use second := by
  simp only [Avoids, List.mem_append]
  constructor
  · intro h
    exact ⟨fun i hMem => h i (.inl hMem),
      fun i hMem => h i (.inr hMem)⟩
  · rintro ⟨hFirst, hSecond⟩ i (hMem | hMem)
    · exact hFirst i hMem
    · exact hSecond i hMem

/-
  All uses stand in a stretch of lines, into which no line
  outside of it leaves.
-/
structure Confined
    (use : Instruction → Prop)
    (before stretch behind : List Line) : Prop where
  avoidsBefore : Avoids use before
  avoidsBehind : Avoids use behind
  entered : ∀ l ∈ targets (before ++ behind),
    l ∉ labels stretch

/-
  All uses stand in a stretch behind an opening, all of
  whose labels are of a given kind.
-/
def Confines
    (opening use : Instruction → Prop)
    (kind : Label → Prop)
    (code : List Line) : Prop :=
  ∃ before first stretch behind,
    code = before ++
      .instruction first :: (stretch ++ behind) ∧
      opening first ∧ ¬ use first ∧
      Confined use before stretch behind ∧
      ∀ l ∈ labels stretch, kind l

/-
  The first use comes behind an opening, and the lines
  before it leave for none but themselves.
-/
def Opens
    (opening use : Instruction → Prop)
    (code : List Line) : Prop :=
  ∃ before first stretch,
    code = before ++ .instruction first :: stretch ∧
      opening first ∧ ¬ use first ∧ Avoids use before ∧
      ∀ l ∈ targets before, l ∈ labels before

variable {code : List Line} {kind : Label → Prop}

theorem mem_targets :
    l ∈ targets code ↔
      ∃ i, .instruction i ∈ code ∧ l ∈ i.targets := by
  induction code with
  | nil => simp [targets]
  | cons line rest ih =>
      cases line with
      | label k => simp [targets, ih]
      | instruction j =>
          simp only [targets, List.mem_append, ih,
            List.mem_cons, Line.instruction.injEq]
          constructor
          · rintro (hHead | ⟨i, hMem, hTarget⟩)
            · exact ⟨j, .inl rfl, hHead⟩
            · exact ⟨i, .inr hMem, hTarget⟩
          · rintro ⟨i, rfl | hMem, hTarget⟩
            · exact .inl hTarget
            · exact .inr ⟨i, hMem, hTarget⟩

theorem mem_labels :
    l ∈ labels code ↔ .label l ∈ code := by
  simp only [labels, List.mem_filterMap]
  constructor
  · rintro ⟨line, hMem, hLabel⟩
    cases line with
    | label k =>
        rcases Option.some.inj hLabel with rfl
        exact hMem
    | instruction i => cases hLabel
  · intro hMem
    exact ⟨.label l, hMem, rfl⟩

/- Where a line of a code with a stretch stands. -/
theorem locate
    {before stretch behind : List Line}
    {first line : Line}
    (hLine :
      (before ++ first :: (stretch ++ behind))[i]? =
        some line) :
    (i < before.length ∧ line ∈ before) ∨
      (i = before.length ∧ line = first) ∨
      (before.length < i ∧
        i ≤ before.length + stretch.length ∧
        line ∈ stretch) ∨
      (before.length + stretch.length < i ∧
        line ∈ behind) := by
  by_cases hBefore : i < before.length
  · rw [List.getElem?_append_left hBefore] at hLine
    exact .inl ⟨hBefore, List.mem_of_getElem? hLine⟩
  · rw [List.getElem?_append_right
      (Nat.le_of_not_lt hBefore)] at hLine
    cases hOffset : i - before.length with
    | zero =>
        rw [hOffset] at hLine
        refine .inr (.inl ⟨by omega, ?_⟩)
        exact (Option.some.inj hLine).symm
    | succ offset =>
        rw [hOffset, List.getElem?_cons_succ] at hLine
        by_cases hStretch : offset < stretch.length
        · rw [List.getElem?_append_left hStretch] at hLine
          refine .inr (.inr (.inl ⟨by omega, by omega, ?_⟩))
          exact List.mem_of_getElem? hLine
        · rw [List.getElem?_append_right
            (Nat.le_of_not_lt hStretch)] at hLine
          refine .inr (.inr (.inr ⟨by omega, ?_⟩))
          exact List.mem_of_getElem? hLine

variable {opening use : Instruction → Prop}

/- A path comes into the stretch by the opening only. -/
theorem Confined.passes
    {before stretch behind : List Line}
    {first : Instruction}
    (h : Confined use before stretch behind)
    (hPath :
      Path (before ++ .instruction first ::
        (stretch ++ behind)) passed i)
    (hLow : before.length < i)
    (hHigh : i ≤ before.length + stretch.length) :
    before.length ∈ passed := by
  induction hPath with
  | entry => omega
  | @step passed i j hPath hEdge ih =>
      by_cases hInside :
          before.length < i ∧
            i ≤ before.length + stretch.length
      · exact List.mem_cons_of_mem i
          (ih hInside.1 hInside.2)
      by_cases hOpening : i = before.length
      · rw [hOpening]
        exact List.mem_cons_self
      -- what is left are the lines before and behind
      cases hEdge with
      | label => omega
      | next => omega
      | leave hLine hTarget hLabel =>
          rename_i jump l
          have hStretch : l ∈ labels stretch := by
            rcases locate hLabel with
              hAt | hAt | ⟨-, -, hMem⟩ | hAt
            · omega
            · omega
            · exact mem_labels.mpr hMem
            · omega
          have hOutside :
              l ∈ targets (before ++ behind) := by
            rw [mem_targets]
            refine ⟨jump, ?_, hTarget⟩
            rcases locate hLine with
              ⟨-, hMem⟩ | hAt | hAt | ⟨-, hMem⟩
            · exact List.mem_append_left _ hMem
            · exact absurd hAt.1 hOpening
            · exact absurd ⟨hAt.1, hAt.2.1⟩ hInside
            · exact List.mem_append_right _ hMem
          exact absurd hStretch (h.entered l hOutside)

/- Uses that are confined are dominated by the opening. -/
theorem Confines.dominates
    (h : Confines opening use kind code) :
    Dominates opening use code := by
  rcases h with
    ⟨before, first, stretch, behind, rfl, hOpening, hFirst,
      hConfined, -⟩
  intro passed i used hPath hLine hUse
  have hPassed : before.length ∈ passed := by
    rcases locate hLine with
      ⟨-, hMem⟩ | ⟨-, hEq⟩ | ⟨hLow, hHigh, -⟩ | ⟨-, hMem⟩
    · exact absurd hUse (hConfined.avoidsBefore used hMem)
    · cases hEq
      exact absurd hUse hFirst
    · exact hConfined.passes hPath hLow hHigh
    · exact absurd hUse (hConfined.avoidsBehind used hMem)
  refine ⟨before.length, hPassed, first, ?_, hOpening⟩
  rw [List.getElem?_append_right (Nat.le_refl _)]
  simp

/- A code without any use has nothing to be dominated. -/
theorem Avoids.dominates
    (h : Avoids use code) :
    Dominates opening use code := by
  intro passed i used _ hLine hUse
  exact absurd hUse (h used (List.mem_of_getElem? hLine))

theorem Confines.weaken
    {kind₁ kind₂ : Label → Prop}
    (h : Confines opening use kind₁ code)
    (hKind : ∀ l, kind₁ l → kind₂ l) :
    Confines opening use kind₂ code := by
  rcases h with
    ⟨before, first, stretch, behind, hCode, hOpening,
      hFirst, hConfined, hLabels⟩
  exact ⟨before, first, stretch, behind, hCode, hOpening,
    hFirst, hConfined, fun l hMem =>
      hKind l (hLabels l hMem)⟩

/- Code that leaves for no label inside can surround. -/
theorem Confines.surround
    (earlier later : List Line)
    (h : Confines opening use kind code)
    (hEarlier : Avoids use earlier)
    (hLater : Avoids use later)
    (hTargets : ∀ l ∈ targets (earlier ++ later),
      ¬ kind l) :
    Confines opening use kind
      (earlier ++ code ++ later) := by
  rcases h with
    ⟨before, first, stretch, behind, rfl, hOpening, hFirst,
      hConfined, hLabels⟩
  refine ⟨earlier ++ before, first, stretch,
    behind ++ later, ?_,
    hOpening, hFirst, ⟨?_, ?_, ?_⟩, hLabels⟩
  · simp
  · exact avoids_append.mpr
      ⟨hEarlier, hConfined.avoidsBefore⟩
  · exact avoids_append.mpr ⟨hConfined.avoidsBehind, hLater⟩
  · intro l hTarget hLabel
    have hKind := hLabels l hLabel
    simp only [targets_append, List.mem_append]
      at hTarget hTargets
    rcases hTarget with (hIn | hIn) | (hIn | hIn)
    · exact hTargets l (.inl hIn) hKind
    · exact hConfined.entered l (by simp [hIn]) hLabel
    · exact hConfined.entered l (by simp [hIn]) hLabel
    · exact hTargets l (.inr hIn) hKind

theorem Opens.append
    (h : Opens opening use code)
    (later : List Line) :
    Opens opening use (code ++ later) := by
  rcases h with ⟨before, first, stretch, rfl, hRest⟩
  refine ⟨before, first, stretch ++ later, ?_, hRest⟩
  simp

theorem Opens.prepend
    {earlier code : List Line}
    (h : Opens opening use code)
    (hEarlier : Avoids use earlier)
    (hTargets : ∀ l ∈ targets earlier, l ∈ labels earlier) :
    Opens opening use (earlier ++ code) := by
  rcases h with
    ⟨before, first, stretch, rfl, hOpening, hFirst,
      hAvoids, hClosed⟩
  refine ⟨earlier ++ before, first, stretch, ?_, hOpening,
    hFirst, avoids_append.mpr ⟨hEarlier, hAvoids⟩, ?_⟩
  · simp
  · intro l hTarget
    rw [targets_append, List.mem_append] at hTarget
    rw [labels_append, List.mem_append]
    exact hTarget.imp (hTargets l) (hClosed l)

/- Everything behind an opening is a stretch of its own. -/
theorem Opens.confines
    (h : Opens opening use code)
    (hNodup : (labels code).Nodup)
    (hLabels : ∀ l ∈ labels code, kind l) :
    Confines opening use kind code := by
  rcases h with
    ⟨before, first, stretch, rfl, hOpening, hFirst,
      hAvoids, hClosed⟩
  rw [labels_append, labels_instruction] at hNodup hLabels
  refine ⟨before, first, stretch, [], by simp, hOpening,
    hFirst, ⟨hAvoids, ?_, ?_⟩, ?_⟩
  · exact avoids_nil
  · intro l hTarget hLabel
    rw [List.append_nil] at hTarget
    have hNe := (List.nodup_append.mp hNodup).2.2
    exact hNe l (hClosed l hTarget) l hLabel rfl
  · exact fun l hMem =>
      hLabels l (List.mem_append_right _ hMem)

/- Whether control may go from one line to another. -/
def leads
    (code : List Line)
    (i j : Nat) : Bool :=
  match code[i]?, code[j]? with
  | some (.label _), _ => j == i + 1
  | some (.instruction written), some (.label l) =>
      !written.endsBlock && j == i + 1 ||
        decide (l ∈ written.targets)
  | some (.instruction written), _ =>
      !written.endsBlock && j == i + 1
  | none, _ => false

theorem edge_of_leads
    (hLeads : leads code i j = true) :
    Edge code i j := by
  unfold leads at hLeads
  split at hLeads
  case h_1 hFirst =>
    rcases beq_iff_eq.mp hLeads with rfl
    exact .label hFirst
  case h_2 hFirst hSecond =>
    simp only [Bool.or_eq_true, Bool.and_eq_true,
      Bool.not_eq_true', beq_iff_eq, decide_eq_true_eq]
        at hLeads
    rcases hLeads with ⟨hOpen, rfl⟩ | hTarget
    · exact .next hFirst hOpen
    · exact .leave hFirst hTarget hSecond
  case h_3 hFirst _ =>
    simp only [Bool.and_eq_true, Bool.not_eq_true',
      beq_iff_eq] at hLeads
    rcases hLeads with ⟨hOpen, rfl⟩
    exact .next hFirst hOpen
  case h_4 => cases hLeads

/- Whether lines, the last first, lead to a line. -/
def walks (code : List Line) : List Nat → Nat → Bool
| [], j => j == 0
| i :: passed, j => leads code i j && walks code passed i

theorem path_of_walks
    (hWalks : walks code passed j = true) :
    Path code passed j := by
  induction passed generalizing j with
  | nil =>
      rcases beq_iff_eq.mp hWalks with rfl
      exact .entry
  | cons i passed ih =>
      rcases Bool.and_eq_true_iff.mp hWalks with
        ⟨hLeads, hEarlier⟩
      exact .step (ih hEarlier) (edge_of_leads hLeads)

/- Whether a line is an instruction of a kind. -/
def holdsAt
    (kind : Instruction → Bool)
    (code : List Line)
    (i : Nat) : Bool :=
  match code[i]? with
  | some (.instruction written) => kind written
  | _ => false

/- Whether lines lead to a use and pass no opening. -/
def escapes
    (opening use : Instruction → Bool)
    (code : List Line)
    (passed : List Nat)
    (j : Nat) : Bool :=
  walks code passed j && holdsAt use code j &&
    passed.all fun i => !holdsAt opening code i

theorem not_dominates_of_escapes
    {open? use? : Instruction → Bool}
    (hOpening : ∀ i, opening i → open? i = true)
    (hUse : ∀ i, use? i = true → use i)
    (hEscapes : escapes open? use? code passed j = true) :
    ¬ Dominates opening use code := by
  simp only [escapes, Bool.and_eq_true, List.all_eq_true]
    at hEscapes
  rcases hEscapes with ⟨⟨hWalks, hLast⟩, hPassed⟩
  intro hDominates
  unfold holdsAt at hLast
  split at hLast
  case h_1 used hUsed =>
    rcases hDominates passed j used (path_of_walks hWalks)
      hUsed (hUse used hLast) with
        ⟨i, hMem, first, hFirst, hOpens⟩
    have hClear := hPassed i hMem
    simp [holdsAt, hFirst, hOpening first hOpens] at hClear
  case h_2 => cases hLast

end Line

end Bracketry
