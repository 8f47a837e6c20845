import Bracketry.Code.Builder
import Bracketry.Proofs.Step

/-
  This file states what a step of writing can change,
  whether it succeeds or ends in a fault.

  Lines are only added, counters only grow, slots stay
  allocated and the exits of the loops around are kept.  A
  step places every label that it takes over at most once,
  every label that it hands out itself at most once, and no
  other label.

  Main declarations:
    * `Build.after` and `Build.Writes`
    * `Build.Writes.label` and `Build.Writes.insideLoop`
-/

namespace Bracketry

namespace Line

/- The label that a line places. -/
def label? : Line → Option Label
| .label l => some l
| .instruction _ => none

/- The labels that lines place, in order. -/
def labels (lines : List Line) : List Label :=
  lines.filterMap label?

@[simp] theorem labels_nil :
    labels [] = [] := rfl

@[simp] theorem labels_append
    (first second : List Line) :
    labels (first ++ second) = labels first ++
      labels second :=
  List.filterMap_append

@[simp] theorem labels_label
    (l : Label)
    (rest : List Line) :
    labels (.label l :: rest) = l :: labels rest := rfl

@[simp] theorem labels_instruction
    (i : Instruction)
    (rest : List Line) :
    labels (.instruction i :: rest) = labels rest := rfl

end Line

namespace Builder

variable (b : Builder)

/- How often a label has been placed. -/
def placed
    (b : Builder)
    (l : Label) : Nat :=
  (Line.labels b.lines.toList).count l

@[simp] theorem placed_write_instruction
    (i : Instruction)
    (l : Label) :
    (b.write (.instruction i)).placed l = b.placed l := by
  simp [placed, write]

@[simp] theorem placed_write_label
    (m l : Label) :
    (b.write (.label m)).placed l =
      b.placed l + [m].count l := by
  simp [placed, write]

------------------------------------------------------------
-- What a Step Writes
------------------------------------------------------------

/-
  The second state comes from the first by writing, and the
  only labels of the first that are placed are those of
  `own`.
-/
structure Writes
    (own : List Label)
    (b b' : Builder) : Prop where
  lines : b.lines.toList <+: b'.lines.toList
  labels : b.nextLabel ≤ b'.nextLabel
  temporaries : b.nextTemporary ≤ b'.nextTemporary
  exits : b'.loopExits = b.loopExits
  slots : b.allocated <:+ b'.allocated
  old :
    ∀ l : Label, l.number < b.nextLabel →
      b'.placed l ≤ b.placed l + own.count l
  fresh :
    ∀ l : Label, b.nextLabel ≤ l.number →
      b'.placed l ≤ b.placed l + 1
  unused :
    ∀ l : Label, b'.nextLabel ≤ l.number →
      b'.placed l = b.placed l

/- All of some labels have been handed out. -/
def Reserved
    (b : Builder)
    (own : List Label) : Prop :=
  ∀ l ∈ own, l.number < b.nextLabel

@[simp] theorem reserved_nil :
    b.Reserved [] := by
  intro l hMem
  cases hMem

theorem Reserved.count_eq_zero
    {b : Builder}
    {own : List Label}
    {l : Label}
    (hOwn : b.Reserved own)
    (hLe : b.nextLabel ≤ l.number) :
    own.count l = 0 := by
  apply List.count_eq_zero_of_not_mem
  intro hMem
  have hLt := hOwn l hMem
  omega

namespace Writes

variable {b b₁ b₂ b' : Builder} {own own₁ own₂ : List Label}

/- Labels that were handed out stay handed out. -/
theorem reserved
    {others : List Label}
    (h : Writes own b b')
    (hOthers : b.Reserved others) :
    b'.Reserved others := by
  intro l hMem
  have hLt := hOthers l hMem
  have hLe := h.labels
  omega

theorem refl
    (b : Builder) :
    Writes [] b b where
  lines := List.prefix_refl _
  labels := Nat.le_refl _
  temporaries := Nat.le_refl _
  exits := rfl
  slots := List.suffix_refl _
  old := by simp
  fresh := by
    intro l hLe
    omega
  unused := by simp

/- One step after the other. -/
theorem trans
    (h₁ : Writes own₁ b b₁)
    (h₂ : Writes own₂ b₁ b₂)
    (hOwn : b.Reserved own₂) :
    Writes (own₁ ++ own₂) b b₂ where
  lines := h₁.lines.trans h₂.lines
  labels := Nat.le_trans h₁.labels h₂.labels
  temporaries := Nat.le_trans h₁.temporaries h₂.temporaries
  exits := h₂.exits.trans h₁.exits
  slots := h₁.slots.trans h₂.slots
  old := by
    intro l hLt
    have hFirst := h₁.old l hLt
    have hSecond :=
      h₂.old l (Nat.lt_of_lt_of_le hLt h₁.labels)
    rw [List.count_append]
    omega
  fresh := by
    intro l hLe
    by_cases hEarly : l.number < b₁.nextLabel
    · have hFirst := h₁.fresh l hLe
      have hSecond := h₂.old l hEarly
      have hCount := hOwn.count_eq_zero hLe
      omega
    · have hFirst := h₁.unused l (Nat.le_of_not_lt hEarly)
      have hSecond := h₂.fresh l (Nat.le_of_not_lt hEarly)
      omega
  unused := by
    intro l hLe
    have hFirst := h₁.unused l (Nat.le_trans h₂.labels hLe)
    have hSecond := h₂.unused l hLe
    omega

/- More labels may be taken over than are placed. -/
theorem weaken
    (h : Writes own₁ b b')
    (hCount : ∀ l, own₁.count l ≤ own₂.count l) :
    Writes own₂ b b' where
  lines := h.lines
  labels := h.labels
  temporaries := h.temporaries
  exits := h.exits
  slots := h.slots
  old := by
    intro l hLt
    have hOld := h.old l hLt
    have hLe := hCount l
    omega
  fresh := h.fresh
  unused := h.unused

/- A label handed out first may be placed as given. -/
theorem ofReserve
    (hOwn : b.Reserved own)
    (h : Writes (b.reserve.1 :: own) b.reserve.2 b') :
    Writes own b b' where
  lines := h.lines
  labels := Nat.le_of_succ_le h.labels
  temporaries := h.temporaries
  exits := h.exits
  slots := h.slots
  old := by
    intro l hLt
    have hNe : b.reserve.1 ≠ l := by
      rintro rfl
      exact Nat.lt_irrefl _ hLt
    have hOld := h.old l (Nat.lt_succ_of_lt hLt)
    rw [List.count_cons_of_ne hNe] at hOld
    exact hOld
  fresh := by
    intro l hLe
    by_cases hEq : l.number = b.nextLabel
    · have hOld :=
        h.old l (Nat.lt_succ_of_le (Nat.le_of_eq hEq))
      have hCount := hOwn.count_eq_zero hLe
      have hCons := List.count_cons (a := l)
        (b := b.reserve.1) (l := own)
      have hPlaced : b.reserve.2.placed l = b.placed l :=
        rfl
      split at hCons <;> omega
    · exact h.fresh l
        (by change b.nextLabel + 1 ≤ l.number; omega)
  unused := h.unused

theorem number
    (b : Builder) :
    Writes [] b b.number.2 :=
  { refl b with temporaries := Nat.le_succ _ }

theorem instruction
    (b : Builder)
    (i : Instruction) :
    Writes [] b (b.write (.instruction i)) where
  lines := by simp [write]
  labels := Nat.le_refl _
  temporaries := Nat.le_refl _
  exits := rfl
  slots := List.suffix_refl _
  old := by simp
  fresh := by simp
  unused := by simp

theorem label
    {l : Label}
    (hReserved : l.number < b.nextLabel) :
    Writes [l] b (b.write (.label l)) where
  lines := by simp [write]
  labels := Nat.le_refl _
  temporaries := Nat.le_refl _
  exits := rfl
  slots := List.suffix_refl _
  old := by simp
  fresh := by
    intro m hLe
    rw [placed_write_label]
    have hCount := List.count_le_length (a := m) (l := [l])
    simp only [List.length_singleton] at hCount
    omega
  unused := by
    intro m hLe
    have hLe' : b.nextLabel ≤ m.number := hLe
    have hNe : l ≠ m := by
      rintro rfl
      omega
    simp [hNe]

/- Whether a block is open does not matter. -/
theorem between
    (h : Writes own b b')
    (open' : Bool) :
    Writes own b { b' with between := open' } :=
  { lines := h.lines
    labels := h.labels
    temporaries := h.temporaries
    exits := h.exits
    slots := h.slots
    old := h.old
    fresh := h.fresh
    unused := h.unused }

theorem place
    {l : Label}
    (hReserved : l.number < b.nextLabel) :
    Writes [l] b (b.place l) := by
  unfold Builder.place
  by_cases hBetween : b.between = true
  · simp only [hBetween, if_true]
    exact (label hReserved).between false
  · simp only [hBetween]
    have hJump := instruction b (.jump l)
    have hLabel :
        Writes [l] (b.write (.instruction (.jump l)))
        ((b.write (.instruction (.jump l))).write
          (.label l)) :=
      label hReserved
    have hOwn : b.Reserved [l] := by
      simpa [Reserved] using hReserved
    exact (hJump.trans hLabel hOwn).between false

theorem reopen
    (b : Builder) :
    Writes [] b b.reopen := by
  unfold Builder.reopen
  by_cases hBetween : b.between = true
  · simp only [hBetween, if_true]
    exact ofReserve (reserved_nil b)
      (place (Nat.lt_succ_self _))
  · simp only [hBetween]
    exact refl b

theorem append
    (b : Builder)
    (i : Instruction) :
    Writes [] b (b.append i) :=
  ((reopen b).trans (instruction b.reopen i)
    (reserved_nil b)).between i.endsBlock

theorem jump
    (b : Builder)
    (l : Label) :
    Writes [] b (b.jump l) := by
  unfold Builder.jump
  by_cases hBetween : b.between = true
  · simp only [hBetween, if_true]
    exact refl b
  · simp only [hBetween]
    exact append b (.jump l)

/- A branch that goes on at a fresh label behind it. -/
theorem appendPlace
    (b : Builder)
    (i : Instruction) :
    Writes [] b
      ((b.reserve.2.append i).place b.reserve.1) := by
  apply ofReserve (reserved_nil b)
  have hAppend := append b.reserve.2 i
  have hReserved : b.reserve.2.Reserved [b.reserve.1] := by
    intro l hMem
    rw [List.mem_singleton.mp hMem]
    exact Nat.lt_succ_self _
  have hPlace : Writes [b.reserve.1] (b.reserve.2.append i)
      ((b.reserve.2.append i).place b.reserve.1) :=
    place (hAppend.reserved hReserved _
      (List.mem_singleton_self _))
  exact hAppend.trans hPlace hReserved

theorem branch
    (b : Builder)
    (condition : Value)
    (onTrue onFalse : Option Label) :
    Writes [] b (b.branch condition onTrue onFalse) := by
  cases onTrue with
  | some t =>
      cases onFalse with
      | some f => exact append b (.branch condition t f)
      | none =>
          exact appendPlace b
            (.branch condition t b.reserve.1)
  | none =>
      cases onFalse with
      | some f =>
          exact appendPlace b
            (.branch condition b.reserve.1 f)
      | none => exact refl b

theorem allocate
    (b : Builder)
    (slot : String)
    (t : Ty) :
    Writes [] b (b.allocate slot t) := by
  unfold Builder.allocate
  by_cases hMem : slot ∈ b.allocated
  · simp only [hMem, if_true]
    exact refl b
  · simp only [hMem, if_false]
    have hSlot :
        Writes [] b
          { b with allocated := slot :: b.allocated } :=
      { refl b with slots := List.suffix_cons _ _ }
    exact hSlot.trans (append _ _) (reserved_nil b)

end Writes

end Builder

------------------------------------------------------------
-- Steps
------------------------------------------------------------

namespace Build

variable {α β : Type}

/- The state that a step leaves. -/
def after
    (x : Build α)
    (b : Builder) : Builder :=
  match x b with
  | .ok _ b' => b'
  | .error _ b' => b'

variable {b b' : Builder}

theorem after_eq_of_ok
    {x : Build α}
    {a : α}
    (h : x b = .ok a b') :
    x.after b = b' := by
  simp [after, h]

theorem label_eq_ok
    {l : Label} :
    Build.label b = .ok l b' ↔
      (⟨b.nextLabel⟩ : Label) = l ∧ b.reserve.2 = b' := by
  change EStateM.Result.ok b.reserve.1 b.reserve.2 =
    .ok l b' ↔ _
  rw [EStateM.Result.ok.injEq]
  rfl

theorem label_bind_eq_ok
    {f : Label → Build α}
    {a : α} :
    (Build.label >>= f) b = .ok a b' ↔
      ∃ l, (⟨b.nextLabel⟩ : Label) = l ∧
        f l b.reserve.2 = .ok a b' := by
  rw [exists_eq_left']
  rfl

theorem insideLoop_eq_ok
    {body : Build α}
    {exit : Label}
    {a : α} :
    insideLoop exit body b = .ok a b' ↔
      ∃ b₁,
        body { b with loopExits := exit :: b.loopExits } =
          .ok a b₁ ∧
        { b₁ with loopExits := b₁.loopExits.tail } =
          b' := by
  unfold insideLoop
  cases body
    { b with loopExits := exit :: b.loopExits } with
  | error fault b₁ => simp
  | ok a' b₁ =>
      constructor
      · intro hOk
        cases hOk
        exact ⟨b₁, rfl, rfl⟩
      · rintro ⟨_, hBody, hAfter⟩
        cases hBody
        exact congrArg (EStateM.Result.ok a) hAfter

/-
  A step writes, placing no labels handed out before but
  those of `own`.
-/
def Writes
    (own : List Label)
    (x : Build α) : Prop :=
  ∀ b : Builder, b.Reserved own → b.Writes own (x.after b)

namespace Writes

variable {own own₁ own₂ : List Label} {x : Build α}
variable {f : α → Build β}

theorem ok
    {b b' : Builder}
    {a : α}
    (h : Writes [] x)
    (hOk : x b = .ok a b') :
    b.Writes [] b' := by
  have hWrites := h b (Builder.reserved_nil b)
  rwa [after_eq_of_ok hOk] at hWrites

theorem weaken
    (h : Writes own₁ x)
    (hMem : ∀ l ∈ own₁, l ∈ own₂)
    (hCount : ∀ l, own₁.count l ≤ own₂.count l) :
    Writes own₂ x := by
  intro b hOwn
  have hOwn₁ : b.Reserved own₁ :=
    fun l hIn => hOwn l (hMem l hIn)
  exact (h b hOwn₁).weaken hCount

/- The order in which labels are taken over is free. -/
theorem perm
    (h : Writes own₁ x)
    (hPerm : own₁.Perm own₂) :
    Writes own₂ x := by
  apply h.weaken
  · intro l hMem
    exact hPerm.mem_iff.mp hMem
  · intro l
    exact Nat.le_of_eq (hPerm.count_eq l)

theorem pure
    (a : α) :
    Writes [] (pure a : Build α) :=
  fun b _ => .refl b

theorem throw
    (fault : Fault) :
    Writes [] (throw fault : Build α) :=
  fun b _ => .refl b

/- What follows may use what the first results can be. -/
theorem bindOf
    (hFirst : Writes own₁ x)
    (hSecond :
      ∀ a, (∃ b b', x b = .ok a b') → Writes own₂ (f a)) :
    Writes (own₁ ++ own₂) (x >>= f) := by
  intro b hOwn
  have hOwn₁ : b.Reserved own₁ :=
    fun l hMem => hOwn l (List.mem_append_left _ hMem)
  have hOwn₂ : b.Reserved own₂ :=
    fun l hMem => hOwn l (List.mem_append_right _ hMem)
  have h₁ := hFirst b hOwn₁
  change b.Writes _ (after (EStateM.bind x f) b)
  unfold after EStateM.bind
  unfold after at h₁
  cases hRun : x b with
  | ok a b₁ =>
      rw [hRun] at h₁
      have h₂ :=
        hSecond a ⟨b, b₁, hRun⟩ b₁ (h₁.reserved hOwn₂)
      unfold after at h₂
      exact h₁.trans h₂ hOwn₂
  | error fault b₁ =>
      rw [hRun] at h₁
      refine h₁.weaken ?_
      intro l
      rw [List.count_append]
      omega

theorem bind
    (hFirst : Writes own₁ x)
    (hSecond : ∀ a, Writes own₂ (f a)) :
    Writes (own₁ ++ own₂) (x >>= f) :=
  hFirst.bindOf fun a _ => hSecond a

/- Steps that place no given label, one after the other. -/
theorem bind_nil
    (hFirst : Writes [] x)
    (hSecond : ∀ a, Writes own (f a)) :
    Writes own (x >>= f) :=
  hFirst.bind hSecond

/-
  A step that places a given label, with more labels to be
  placed behind it.
-/
theorem bind_cons
    {l : Label}
    (hFirst : Writes [l] x)
    (hSecond : ∀ a, Writes own (f a)) :
    Writes (l :: own) (x >>= f) :=
  hFirst.bind hSecond

/- A label handed out may be placed once. -/
theorem label
    {f : Label → Build α}
    (h : ∀ l, Writes (l :: own) (f l)) :
    Writes own (Build.label >>= f) := by
  intro b hOwn
  apply Builder.Writes.ofReserve hOwn
  apply h b.reserve.1 b.reserve.2
  intro l hMem
  rcases List.mem_cons.mp hMem with hEq | hIn
  · rw [hEq]
    exact Nat.lt_succ_self _
  · exact Nat.lt_succ_of_lt (hOwn l hIn)

theorem number :
    Writes [] Build.number :=
  fun b _ => .number b

theorem place
    (l : Label) :
    Writes [l] (Build.place l) :=
  fun _ hOwn => .place (hOwn l (List.mem_singleton_self l))

theorem append
    (i : Instruction) :
    Writes [] (Build.append i) :=
  fun b _ => .append b i

theorem jump
    (l : Label) :
    Writes [] (Build.jump l) :=
  fun b _ => .jump b l

theorem branch
    (condition : Value)
    (onTrue onFalse : Option Label) :
    Writes [] (Build.branch condition onTrue onFalse) :=
  fun b _ => .branch b condition onTrue onFalse

theorem allocate
    (slot : String)
    (t : Ty) :
    Writes [] (Build.allocate slot t) :=
  fun b _ => .allocate b slot t

theorem define
    (t : Ty)
    (i : Nat → Instruction) :
    Writes [] (Build.define t i) :=
  number.bind_nil fun dest =>
    (append (i dest)).bind_nil fun _ => pure _

/- The exit of a loop is forgotten behind its body. -/
theorem insideLoop
    {body : Build α}
    (exit : Label)
    (h : Writes own body) :
    Writes own (Build.insideLoop exit body) := by
  intro b hOwn
  have hBody :=
    h { b with loopExits := exit :: b.loopExits } hOwn
  unfold after at hBody
  unfold after Build.insideLoop
  cases hRun :
    body { b with loopExits := exit :: b.loopExits } with
  | ok a b' =>
      rw [hRun] at hBody
      have hExits : b'.loopExits.tail = b.loopExits := by
        rw [hBody.exits, List.tail_cons]
      exact { hBody with exits := hExits }
  | error fault b' =>
      rw [hRun] at hBody
      have hExits : b'.loopExits.tail = b.loopExits := by
        rw [hBody.exits, List.tail_cons]
      exact { hBody with exits := hExits }

end Writes

end Build

end Bracketry
