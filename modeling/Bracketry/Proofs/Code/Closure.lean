import Bracketry.Proofs.Code.Emission

/-
  This file shows that emitted code is closed: every label
  that control leaves for is placed or was given, no label
  is placed twice, and where two outcomes are merged,
  control comes from exactly the two blocks that the merge
  names.

  Main declarations:
    * `Line.sources` and `Line.Joined`
    * `Builder.Emits.placed_of_target`
    * `Builder.Emits.joined`
-/

namespace Bracketry

------------------------------------------------------------
-- Control Flow of Lines
------------------------------------------------------------

namespace Line

/- The labels that control may leave for. -/
def targets : List Line → List Label
| [] => []
| .label _ :: rest => targets rest
| .instruction i :: rest => i.targets ++ targets rest

/-
  Every instruction with the label of the block it stands
  in, where the first lines stand in a given block.
-/
def located
    (block : Option Label) :
    List Line → List (Option Label × Instruction)
| [] => []
| .label l :: rest => located (some l) rest
| .instruction i :: rest => (block, i) :: located block rest

/- The block that the lines end in. -/
def lastBlock
    (block : Option Label) :
    List Line → Option Label
| [] => block
| .label l :: rest => lastBlock (some l) rest
| .instruction _ :: rest => lastBlock block rest

/- The blocks that leave for a label, in order. -/
def sources
    (block : Option Label)
    (l : Label)
    (lines : List Line) : List (Option Label) :=
  ((located block lines).filter fun place =>
    decide (l ∈ place.2.targets)).map Prod.fst

@[simp] theorem targets_append
    (first second : List Line) :
    targets (first ++ second) = targets first ++
      targets second := by
  induction first with
  | nil => rfl
  | cons line rest ih =>
      cases line with
      | label l => exact ih
      | instruction i =>
          simp only [List.cons_append, targets, ih,
            List.append_assoc]

theorem located_append
    (block : Option Label)
    (first second : List Line) :
    located block (first ++ second) =
      located block first ++
        located (lastBlock block first) second := by
  induction first generalizing block with
  | nil => rfl
  | cons line rest ih =>
      cases line with
      | label l => exact ih (some l)
      | instruction i =>
          simp only [List.cons_append, located,
            lastBlock, ih]

theorem sources_append
    (block : Option Label)
    (l : Label)
    (first second : List Line) :
    sources block l (first ++ second) =
      sources block l first ++
        sources (lastBlock block first) l second := by
  simp only [sources, located_append, List.filter_append,
    List.map_append]

/- Control comes to a label only by leaving for it. -/
theorem sources_eq_nil
    {l : Label}
    {lines : List Line}
    (hTargets : l ∉ targets lines)
    (block : Option Label) :
    sources block l lines = [] := by
  induction lines generalizing block with
  | nil => rfl
  | cons line rest ih =>
      cases line with
      | label k => exact ih hTargets (some k)
      | instruction i =>
          simp only [targets, List.mem_append, not_or]
            at hTargets
          have hRest := ih hTargets.2 block
          simp only [sources] at hRest
          simp [sources, located, hTargets.1, hRest]

/-
  Every merge is the first instruction of its block, which
  has a label of a given kind, and names exactly the blocks
  from which control comes to it.
-/
def Joined
    (kind : Label → Prop)
    (lines : List Line) : Prop :=
  ∀ before dest onTrue onFalse behind,
    lines =
      before ++ .instruction (.merge dest onTrue onFalse) ::
        behind →
    onTrue ≠ onFalse ∧
      ∃ earlier done,
        before = earlier ++ [.label done] ∧ kind done ∧
          ∀ block, sources block done lines =
            [some onTrue, some onFalse]

namespace Joined

variable {kind kind₁ kind₂ : Label → Prop}
variable {lines first second : List Line}

theorem weaken
    (h : Joined kind₁ lines)
    (hKind : ∀ l, kind₁ l → kind₂ l) :
    Joined kind₂ lines := by
  intro before dest onTrue onFalse behind hSplit
  rcases h before dest onTrue onFalse behind hSplit with
    ⟨hNe, earlier, done, hBefore, hDone, hSources⟩
  exact ⟨hNe, earlier, done, hBefore, hKind done hDone,
    hSources⟩

/- A single line that is no merge. -/
theorem single
    {line : Line}
    (hLine :
      ∀ dest onTrue onFalse,
        line ≠ .instruction (.merge dest onTrue onFalse)) :
    Joined kind [line] := by
  intro before dest onTrue onFalse behind hSplit
  cases before with
  | nil =>
      exact absurd (List.cons.inj hSplit).1 (hLine _ _ _)
  | cons head rest =>
      have hNil := (List.cons.inj hSplit).2
      simp at hNil

/-
  Code in front or behind does not disturb a merge if it
  never leaves for the label of its block.
-/
theorem append
    (hFirst : Joined kind₁ first)
    (hSecond : Joined kind₂ second)
    (hTargets₁ : ∀ l ∈ targets first, ¬ kind₂ l)
    (hTargets₂ : ∀ l ∈ targets second, ¬ kind₁ l) :
    Joined (fun l => kind₁ l ∨ kind₂ l)
      (first ++ second) := by
  intro before dest onTrue onFalse behind hSplit
  rcases List.append_eq_append_iff.mp hSplit with
    ⟨middle, hBefore, hRest⟩ | ⟨middle, hRest, hBehind⟩
  · -- the merge stands in the second part
    rcases hSecond middle dest onTrue onFalse behind
      hRest with
      ⟨hNe, earlier, done, hMiddle, hDone, hSources⟩
    refine ⟨hNe, first ++ earlier, done, ?_, .inr hDone, ?_⟩
    · rw [hBefore, hMiddle, List.append_assoc]
    · intro block
      have hFree : done ∉ targets first :=
        fun hMem => hTargets₁ done hMem hDone
      rw [sources_append, sources_eq_nil hFree, hSources,
        List.nil_append]
  · cases middle with
    | nil =>
        -- the merge is the first line of the second part
        have hHead :
            second =
              [] ++
                .instruction (.merge dest onTrue onFalse) ::
                behind := by
          simpa using hBehind.symm
        rcases hSecond [] dest onTrue onFalse behind
          hHead with
          ⟨-, earlier, done, hNil, -⟩
        simp at hNil
    | cons line middle =>
        -- the merge stands in the first part
        rw [List.cons_append] at hBehind
        rcases List.cons.inj hBehind with ⟨rfl, hBehind⟩
        rcases hFirst before dest onTrue onFalse middle
          hRest with
          ⟨hNe, earlier, done, hBefore, hDone, hSources⟩
        refine ⟨hNe, earlier, done, hBefore, .inl hDone, ?_⟩
        intro block
        have hFree : done ∉ targets second :=
          fun hMem => hTargets₂ done hMem hDone
        rw [sources_append, sources_eq_nil hFree, hSources,
          List.append_nil]

end Joined

end Line

namespace Builder

namespace Emits

variable {reach : Reach} {given own : List Label}
variable {b b' : Builder} {code : List Line}

theorem lines_eq
    (h : Emits reach given own b code b') :
    b'.lines.toList = b.lines.toList ++ code := by
  induction h with
  | refl => simp
  | trans _ _ ih₁ ih₂ => rw [ih₂, ih₁, List.append_assoc]
  | perm _ _ ih => exact ih
  | placed _ ih => exact ih
  | spare _ ih => exact ih
  | inside _ _ ih => exact ih
  | merge _ _ _ _ ih =>
      simp only [join, Array.toList_append, ih,
        List.append_assoc]
      rfl
  | _ => simp [write, number]

theorem labels_le
    (h : Emits reach given own b code b') :
    b.nextLabel ≤ b'.nextLabel := by
  induction h with
  | trans _ _ ih₁ ih₂ => exact Nat.le_trans ih₁ ih₂
  | perm _ _ ih => exact ih
  | placed _ ih => exact Nat.le_of_succ_le ih
  | spare _ ih => exact Nat.le_of_succ_le ih
  | inside _ _ ih => exact ih
  | merge _ _ _ _ ih =>
      simp only [reserve] at ih
      simp only [join]
      omega
  | _ => exact Nat.le_refl _

theorem loopExits_eq
    (h : Emits reach given own b code b') :
    b'.loopExits = b.loopExits := by
  induction h with
  | trans _ _ ih₁ ih₂ => exact ih₂.trans ih₁
  | perm _ _ ih => exact ih
  | placed _ ih => exact ih
  | spare _ ih => exact ih
  | inside _ _ ih => rw [ih, List.tail_cons]
  | merge _ _ _ _ ih => exact ih
  | _ => rfl

/- The text of every line is known. -/
theorem not_verbatim
    (h : Emits reach given own b code b')
    (text : String) :
    .instruction (.verbatim text) ∉ code := by
  induction h with
  | trans _ _ ih₁ ih₂ => simp [ih₁, ih₂]
  | perm _ _ ih => exact ih
  | placed _ ih => exact ih
  | spare _ ih => exact ih
  | inside _ _ ih => exact ih
  | simple _ hSimple =>
      rw [List.mem_singleton]
      rintro ⟨⟩
      exact hSimple
  | define _ hSimple =>
      rw [List.mem_singleton]
      rintro ⟨⟩
      exact hSimple
  | merge _ _ _ _ ih => simp [joint, ih]
  | _ => simp

------------------------------------------------------------
-- Labels
------------------------------------------------------------

/- Three labels handed out in a row. -/
theorem numbers_of_reserve
    {onTrue onFalse done : Label}
    (hTrue : b.reserve.1 = onTrue)
    (hFalse : b.reserve.2.reserve.1 = onFalse)
    (hDone : b.reserve.2.reserve.2.reserve.1 = done) :
    onTrue.number = b.nextLabel ∧
      onFalse.number = b.nextLabel + 1 ∧
      done.number = b.nextLabel + 2 := by
  subst hTrue hFalse hDone
  exact ⟨rfl, rfl, rfl⟩

theorem labels_joint
    (b : Builder)
    (onTrue onFalse done : Label) :
    Line.labels (b.joint onTrue onFalse done) =
      [onTrue, onFalse, done] := by
  cases hBetween : b.between <;> simp [joint, hBetween]

/- The labels placed are those taken over and fresh ones. -/
theorem labels_perm
    (h : Emits reach given own b code b') :
    ∃ fresh,
      (Line.labels code).Perm (own ++ fresh) ∧ fresh.Nodup ∧
        ∀ l ∈ fresh,
          b.nextLabel ≤ l.number ∧
            l.number < b'.nextLabel := by
  induction h with
  | refl => exact ⟨[], by simp⟩
  | @trans given own₁ own₂ b b₁ b₂ code₁ code₂ h₁ h₂
      ih₁ ih₂ =>
        rcases ih₁ with ⟨fresh₁, hPerm₁, hNodup₁, hRange₁⟩
        rcases ih₂ with ⟨fresh₂, hPerm₂, hNodup₂, hRange₂⟩
        have hLe₁ := h₁.labels_le
        have hLe₂ := h₂.labels_le
        refine ⟨fresh₁ ++ fresh₂, ?_, ?_, ?_⟩
        · have hAll := hPerm₁.append hPerm₂
          have hMiddle :
              (fresh₁ ++ (own₂ ++ fresh₂)).Perm
                (own₂ ++ (fresh₁ ++ fresh₂)) :=
            List.perm_append_comm_assoc fresh₁ own₂ fresh₂
          rw [List.append_assoc] at hAll
          rw [Line.labels_append, List.append_assoc own₁]
          exact hAll.trans (hMiddle.append_left own₁)
        · refine List.nodup_append.mpr
            ⟨hNodup₁, hNodup₂, ?_⟩
          rintro l hFirst _ hSecond rfl
          have hLt := (hRange₁ l hFirst).2
          have hGe := (hRange₂ l hSecond).1
          omega
        · intro l hMem
          rcases List.mem_append.mp hMem with
            hFirst | hSecond
          · have hRange := hRange₁ l hFirst
            omega
          · have hRange := hRange₂ l hSecond
            omega
  | perm _ hOwn ih =>
      rcases ih with ⟨fresh, hPerm, hRest⟩
      exact ⟨fresh, hPerm.trans (hOwn.append_right fresh),
        hRest⟩
  | @placed given own b b' code h ih =>
      rcases ih with ⟨fresh, hPerm, hNodup, hRange⟩
      have hLe := h.labels_le
      refine ⟨b.reserve.1 :: fresh, ?_, ?_, ?_⟩
      · exact hPerm.trans List.perm_middle.symm
      · refine List.nodup_cons.mpr ⟨?_, hNodup⟩
        intro hMem
        exact absurd (hRange _ hMem).1
          (Nat.not_succ_le_self _)
      · intro l hMem
        simp only [reserve] at hLe
        rcases List.mem_cons.mp hMem with rfl | hFresh
        · exact ⟨Nat.le_refl _, hLe⟩
        · have hBounds := hRange l hFresh
          simp only [reserve] at hBounds
          omega
  | spare _ ih =>
      rcases ih with ⟨fresh, hPerm, hNodup, hRange⟩
      refine ⟨fresh, hPerm, hNodup, ?_⟩
      intro l hMem
      exact ⟨Nat.le_of_succ_le (hRange l hMem).1,
        (hRange l hMem).2⟩
  | inside _ _ ih => exact ih
  | @merge given b b' code onTrue onFalse done hT hF
      hD h ih =>
        rcases ih with ⟨fresh, hPerm, hNodup, hRange⟩
        have hLe := h.labels_le
        rcases numbers_of_reserve hT hF hD with ⟨hT, hF, hD⟩
        simp only [reserve] at hRange hLe
        have hJoint :
            ∀ l ∈ [onTrue, onFalse, done],
              b.nextLabel ≤ l.number ∧
                l.number < b.nextLabel + 3 := by
          simp only [List.mem_cons, List.not_mem_nil,
            or_false]
          rintro l (rfl | rfl | rfl) <;> omega
        refine ⟨fresh ++ [onTrue, onFalse, done],
          ?_, ?_, ?_⟩
        · rw [Line.labels_append, labels_joint,
            List.nil_append]
          exact hPerm.append_right _
        · refine List.nodup_append.mpr ⟨hNodup, ?_, ?_⟩
          · simp only [List.nodup_cons, List.mem_cons,
              List.not_mem_nil, or_false, not_or,
                not_false_eq_true,
              List.nodup_nil, and_true]
            refine ⟨⟨?_, ?_⟩, ?_⟩ <;> rintro rfl <;> omega
          · rintro l hFresh _ hMem rfl
            have hGe := (hRange l hFresh).1
            have hLt := (hJoint l hMem).2
            omega
        · intro l hMem
          simp only [join]
          rcases List.mem_append.mp hMem with hFresh | hMem
          · have hBounds := hRange l hFresh
            omega
          · have hBounds := hJoint l hMem
            omega
  | _ => exact ⟨[], by simp⟩

variable {l : Label}

/- A label taken over is placed. -/
theorem labels_of_own
    (h : Emits reach given own b code b')
    (hOwn : l ∈ own) :
    l ∈ Line.labels code := by
  rcases h.labels_perm with ⟨fresh, hPerm, -⟩
  exact hPerm.mem_iff.mpr (List.mem_append_left _ hOwn)

/- A label placed is taken over or fresh. -/
theorem own_or_fresh
    (h : Emits reach given own b code b')
    (hLabel : l ∈ Line.labels code) :
    l ∈ own ∨
      (b.nextLabel ≤ l.number ∧
        l.number < b'.nextLabel) := by
  rcases h.labels_perm with ⟨fresh, hPerm, -, hRange⟩
  rcases List.mem_append.mp (hPerm.mem_iff.mp hLabel) with
    hOwn | hFresh
  · exact .inl hOwn
  · exact .inr (hRange l hFresh)

theorem targets_joint
    {l onTrue onFalse done : Label}
    (hTarget :
      l ∈ Line.targets (b.joint onTrue onFalse done)) :
    l = onTrue ∨ l = done := by
  cases hBetween : b.between <;>
    simp_all [joint, Line.targets, Instruction.targets]

/- Every label left for is given or placed. -/
theorem placed_of_target
    (h : Emits reach given own b code b')
    (hTarget : l ∈ Line.targets code) :
    l ∈ given ∨ (reach.breaks = true ∧ l ∈ b.loopExits) ∨
      l ∈ Line.labels code := by
  induction h with
  | refl => cases hTarget
  | trans h₁ _ ih₁ ih₂ =>
      rw [Line.targets_append] at hTarget
      rw [Line.labels_append, List.mem_append]
      rcases List.mem_append.mp hTarget with
        hFirst | hSecond
      · rcases ih₁ hFirst with hGiven | hExit | hLabel
        · exact .inl hGiven
        · exact .inr (.inl hExit)
        · exact .inr (.inr (.inl hLabel))
      · rcases ih₂ hSecond with hGiven | hExit | hLabel
        · exact .inl hGiven
        · rw [h₁.loopExits_eq] at hExit
          exact .inr (.inl hExit)
        · exact .inr (.inr (.inr hLabel))
  | perm _ _ ih => exact ih hTarget
  | placed h ih =>
      rcases ih hTarget with hGiven | hRest
      · rcases List.mem_cons.mp hGiven with rfl | hGiven
        · exact .inr
            (.inr (h.labels_of_own List.mem_cons_self))
        · exact .inl hGiven
      · exact .inr hRest
  | spare _ ih => exact ih hTarget
  | label => cases hTarget
  | simple _ _ _ hTargets _ =>
      simp only [Line.targets, List.append_nil] at hTarget
      exact .inl (hTargets l hTarget)
  | define _ _ hDest _ =>
      simp [Line.targets, Instruction.targets_of_dest hDest]
        at hTarget
  | allocate => cases hTarget
  | leave hBreaks _ hExits =>
      simp only [Line.targets, Instruction.targets,
        List.append_nil, List.mem_singleton] at hTarget
      simp [hTarget, hExits, hBreaks]
  | inside hExit _ ih =>
      rcases ih hTarget with
        hGiven | ⟨hBreaks, hExits⟩ | hLabel
      · exact .inl hGiven
      · rcases List.mem_cons.mp hExits with rfl | hExits
        · exact .inl hExit
        · exact .inr (.inl ⟨hBreaks, hExits⟩)
      · exact .inr (.inr hLabel)
  | merge _ _ _ _ ih =>
      rw [Line.targets_append] at hTarget
      rw [Line.labels_append, labels_joint]
      simp only [List.mem_append, List.mem_cons,
        List.not_mem_nil, or_false]
      rcases List.mem_append.mp hTarget with hFirst | hJoint
      · rcases ih hFirst with hGiven | hExit | hLabel
        · simp only [List.mem_cons] at hGiven
          grind
        · exact .inr (.inl hExit)
        · exact .inr (.inr (.inl hLabel))
      · have hCases := targets_joint hJoint
        grind

------------------------------------------------------------
-- Merges
------------------------------------------------------------

/- All labels that a step may use are known. -/
structure Known
    (given own : List Label)
    (b : Builder) : Prop where
  given : b.Reserved given
  own : b.Reserved own
  exits : b.Reserved b.loopExits

namespace Known

variable {others : List Label}

/- Fewer labels may be taken over. -/
theorem restrict
    (hKnown : Known given own b)
    (hOthers : ∀ l ∈ others, l ∈ own) :
    Known given others b :=
  ⟨hKnown.given,
    fun l hMem => hKnown.own l (hOthers l hMem),
    hKnown.exits⟩

theorem inside
    {exit : Label}
    (hKnown : Known given own b)
    (hExit : exit ∈ given) :
    Known given own
      { b with loopExits := exit :: b.loopExits } := by
  refine ⟨hKnown.given, hKnown.own, ?_⟩
  intro l hMem
  rcases List.mem_cons.mp hMem with rfl | hExits
  · exact hKnown.given l hExit
  · exact hKnown.exits l hExits

theorem later
    {b₁ : Builder}
    {own' : List Label}
    (hKnown : Known given own b)
    (h : Emits reach given own' b code b₁)
    (hOthers : ∀ l ∈ others, l ∈ own) :
    Known given others b₁ := by
  have hLe := h.labels_le
  have hLater :
      ∀ {ls : List Label}, b.Reserved ls → b₁.Reserved ls :=
    fun hReserved l hMem =>
      Nat.lt_of_lt_of_le (hReserved l hMem) hLe
  refine ⟨hLater hKnown.given, ?_, ?_⟩
  · exact fun l hMem => hLater hKnown.own l (hOthers l hMem)
  · rw [h.loopExits_eq]
    exact hLater hKnown.exits

theorem reserve
    (hKnown : Known given own b)
    {more : List Label}
    (hMore :
      ∀ l ∈ more, l = b.reserve.1 ∨ l ∈ given)
    (hOthers : ∀ l ∈ others, l = b.reserve.1 ∨ l ∈ own) :
    Known more others b.reserve.2 := by
  refine ⟨?_, ?_, ?_⟩
  · intro l hMem
    rcases hMore l hMem with rfl | hGiven
    · exact Nat.lt_succ_self _
    · exact Nat.lt_succ_of_lt (hKnown.given l hGiven)
  · intro l hMem
    rcases hOthers l hMem with rfl | hOwn
    · exact Nat.lt_succ_self _
    · exact Nat.lt_succ_of_lt (hKnown.own l hOwn)
  · exact fun l hMem =>
      Nat.lt_succ_of_lt (hKnown.exits l hMem)

/- A label that is handed out may be left for and placed. -/
theorem kept
    (hKnown : Known given own b)
    (needed : Bool) :
    Known (b.reserve.1.kept needed ++ given)
      (b.reserve.1.kept needed ++ own) b.reserve.2 := by
  have hKept :
      ∀ {ls : List Label},
        ∀ l ∈ b.reserve.1.kept needed ++ ls,
        l = b.reserve.1 ∨ l ∈ ls := by
    intro ls l hMem
    exact (List.mem_append.mp hMem).imp_left fun hIn =>
      (Label.mem_kept.mp hIn).2
  exact hKnown.reserve hKept hKept

end Known

/- Control leaves for no label that is handed out later. -/
theorem target_lt
    (h : Emits reach given own b code b')
    (hKnown : Known given own b)
    (hTarget : l ∈ Line.targets code) :
    l.number < b'.nextLabel := by
  have hLe := h.labels_le
  rcases h.placed_of_target hTarget with
    hGiven | hExit | hLabel
  · exact Nat.lt_of_lt_of_le (hKnown.given l hGiven) hLe
  · exact Nat.lt_of_lt_of_le (hKnown.exits l hExit.2) hLe
  · rcases h.own_or_fresh hLabel with hOwn | hRange
    · exact Nat.lt_of_lt_of_le (hKnown.own l hOwn) hLe
    · exact hRange.2

/- Nor for one that was handed out before to others. -/
theorem not_target
    (h : Emits reach given own b code b')
    (hReserved : l.number < b.nextLabel)
    (hGiven : l ∉ given)
    (hOwn : l ∉ own)
    (hExits : l ∉ b.loopExits) :
    l ∉ Line.targets code := by
  intro hTarget
  rcases h.placed_of_target hTarget with
    hIn | hExit | hLabel
  · exact hGiven hIn
  · exact hExits hExit.2
  · rcases h.own_or_fresh hLabel with hIn | hRange
    · exact hOwn hIn
    · omega

/- Nor for one that a step before it handed out. -/
theorem not_target_of_fresh
    {reach' : Reach}
    {own' : List Label}
    {b₁ : Builder}
    {first : List Line}
    (hFirst : Emits reach' given own' b first b₁)
    (h : Emits reach given own b₁ code b')
    (hKnown : Known given own b)
    (hFresh : b.nextLabel ≤ l.number ∧
      l.number < b₁.nextLabel) :
    l ∉ Line.targets code := by
  refine h.not_target hFresh.2 ?_ ?_ ?_
  · intro hMem
    exact absurd (hKnown.given l hMem)
      (Nat.not_lt_of_le hFresh.1)
  · intro hMem
    exact absurd (hKnown.own l hMem)
      (Nat.not_lt_of_le hFresh.1)
  · intro hMem
    rw [hFirst.loopExits_eq] at hMem
    exact absurd (hKnown.exits l hMem)
      (Nat.not_lt_of_le hFresh.1)

theorem sources_joint
    (b : Builder)
    (onFalse : Label)
    {onTrue done : Label}
    (hNe : onTrue ≠ done)
    (block : Option Label) :
    Line.sources block done (b.joint onTrue onFalse done) =
      [some onTrue, some onFalse] := by
  have hNe' : done ≠ onTrue := hNe.symm
  cases hBetween : b.between <;>
    simp [joint, Line.sources, Line.located,
      Instruction.targets, hBetween, hNe']

/- A joint has one merge, behind its last label. -/
theorem joined_joint
    {onTrue onFalse done : Label}
    (hNe : onTrue ≠ onFalse)
    (hDone : onTrue ≠ done) :
    Line.Joined (fun l => l = done)
      (b.joint onTrue onFalse done) := by
  intro before dest t f behind hSplit
  have hSources := sources_joint b onFalse hDone
  generalize hFront :
    (if b.between then []
      else [Line.instruction (.jump onTrue)]) ++
      [.label onTrue, .instruction (.jump done),
        .label onFalse, .instruction (.jump done)] = front
  have hNone : Line.instruction (.merge dest t f) ∉
      front := by
    rw [← hFront]
    cases b.between <;> simp
  have hJoint :
      b.joint onTrue onFalse done =
        front ++ [.label done,
          .instruction
            (.merge b.nextTemporary onTrue onFalse)] := by
    rw [← hFront, joint, List.append_assoc]
    rfl
  rw [hJoint] at hSplit
  rcases List.append_eq_append_iff.mp hSplit with
    ⟨middle, hBefore, hRest⟩ | ⟨middle, hRest, hBehind⟩
  · cases middle with
    | nil => simp at hRest
    | cons line rest =>
        cases rest with
        | nil =>
            simp only [List.cons_append, List.nil_append,
              List.cons.injEq, Line.instruction.injEq,
              Instruction.merge.injEq] at hRest
            rcases hRest with ⟨rfl, ⟨-, rfl, rfl⟩, -⟩
            exact ⟨hNe, front, done, hBefore, rfl, hSources⟩
        | cons _ _ => simp at hRest
  · cases middle with
    | nil => simp at hBehind
    | cons line middle =>
        rw [List.cons_append] at hBehind
        rcases List.cons.inj hBehind with ⟨rfl, -⟩
        exact absurd (by simp [hRest]) hNone

/-
  Where a merge was emitted, control comes from the two
  blocks it names, and the label of its block is fresh.
-/
theorem joined
    (h : Emits reach given own b code b')
    (hKnown : Known given own b) :
    Line.Joined
      (fun l => b.nextLabel ≤ l.number ∧
        l.number < b'.nextLabel)
      code := by
  induction h with
  | refl =>
      intro before dest onTrue onFalse behind hSplit
      simp at hSplit
  | @trans given own₁ own₂ b b₁ b₂ code₁ code₂ h₁ h₂
      ih₁ ih₂ =>
        have hKnown₁ : Known given own₁ b :=
          hKnown.restrict fun l hMem =>
            List.mem_append_left _ hMem
        have hKnown₂ : Known given own₂ b₁ :=
          hKnown.later h₁ fun l hMem =>
            List.mem_append_right _ hMem
        have hLe₁ := h₁.labels_le
        have hLe₂ := h₂.labels_le
        refine (Line.Joined.append (ih₁ hKnown₁)
          (ih₂ hKnown₂) ?_ ?_).weaken ?_
        · intro l hTarget hFresh
          have hLt := h₁.target_lt hKnown₁ hTarget
          omega
        · intro l hTarget hFresh
          have hOwn : Known given own₂ b :=
            hKnown.restrict fun l hMem =>
              List.mem_append_right _ hMem
          exact not_target_of_fresh h₁ h₂ hOwn
            hFresh hTarget
        · intro l hKind
          omega
  | perm _ hPerm ih =>
      exact ih (hKnown.restrict fun l hMem =>
        hPerm.mem_iff.mp hMem)
  | placed _ ih =>
      have hInner := ih (hKnown.reserve
        (fun l hMem => List.mem_cons.mp hMem)
        (fun l hMem => List.mem_cons.mp hMem))
      exact hInner.weaken fun l hRange =>
        ⟨Nat.le_of_succ_le hRange.1, hRange.2⟩
  | spare _ ih =>
      have hInner := ih (hKnown.reserve
        (fun l hMem => .inr hMem) (fun l hMem => .inr hMem))
      exact hInner.weaken fun l hRange =>
        ⟨Nat.le_of_succ_le hRange.1, hRange.2⟩
  | label => exact .single (by simp)
  | simple _ hSimple =>
      apply Line.Joined.single
      rintro dest onTrue onFalse ⟨⟩
      exact hSimple
  | define _ hSimple =>
      apply Line.Joined.single
      rintro dest onTrue onFalse ⟨⟩
      exact hSimple
  | allocate => exact .single (by simp)
  | leave => exact .single (by simp)
  | inside hExit _ ih => exact ih (hKnown.inside hExit)
  | @merge given b b' code onTrue onFalse done hT hF
      hD h ih =>
        have hLe := h.labels_le
        have hKnown' :
            Known (onTrue :: onFalse :: given) []
              b.reserve.2.reserve.2.reserve.2 := by
          have hKnown₁ :
              Known (onTrue :: given) [] b.reserve.2 :=
            hKnown.reserve (by simp [← hT]) (by simp)
          have hKnown₂ :
              Known (onTrue :: onFalse :: given) []
                b.reserve.2.reserve.2 :=
            hKnown₁.reserve (by grind) (by simp)
          exact hKnown₂.reserve (fun _ hMem => .inr hMem)
            (by simp)
        rcases numbers_of_reserve hT hF hD with ⟨hT, hF, hD⟩
        simp only [Builder.reserve] at hLe
        refine ((ih hKnown').append (joined_joint ?_ ?_) ?_
          ?_).weaken ?_
        · rintro rfl
          omega
        · rintro rfl
          omega
        · rintro l hTarget rfl
          refine h.not_target ?_ ?_ List.not_mem_nil
            ?_ hTarget
          · simp only [Builder.reserve]
            omega
          · simp only [List.mem_cons, not_or]
            refine ⟨?_, ?_, ?_⟩
            · rintro rfl
              omega
            · rintro rfl
              omega
            · intro hMem
              have hLt := hKnown.given l hMem
              omega
          · intro hMem
            have hLt := hKnown.exits l hMem
            omega
        · intro l hTarget hFresh
          simp only [Builder.reserve] at hFresh
          rcases targets_joint hTarget with
            rfl | rfl <;> omega
        · intro l hKind
          simp only [Builder.reserve] at hKind
          simp only [join]
          rcases hKind with hFresh | rfl <;> omega

end Emits

end Builder

end Bracketry
