import Bracketry.Proofs.Machine

/-
  This file connects code that is being written with the
  machine that executes it.

  Positions are counted from a base, so that the lines
  written since some point can be executed as a code of
  their own.  A code may go on behind the lines written so
  far; what has been written decides what the machine does
  there, as long as no label is placed twice in the whole
  code.

  Main declarations:
    * `Builder.Within` and `Builder.Within.step_append`
    * `Interpretation.Passes`
-/

namespace Bracketry

variable {l : Label}

namespace Line

/- No label is placed twice. -/
def Distinct (code : List Line) : Prop :=
  ∀ l : Label, (labels code).count l ≤ 1

variable {code : List Line}

theorem count_labels_pos
    {position : Nat}
    (hLine : code[position]? = some (.label l)) :
    0 < (labels code).count l := by
  rw [List.count_pos_iff]
  have hMem := List.mem_of_getElem? hLine
  exact List.mem_filterMap.mpr ⟨.label l, hMem, rfl⟩

/- The place of a label is found. -/
theorem entry_eq_some
    {position : Nat}
    (hDistinct : Distinct code)
    (hLine : code[position]? = some (.label l)) :
    entry code l = some (position + 1) := by
  induction code generalizing position with
  | nil => cases hLine
  | cons line rest ih =>
      have hCount := hDistinct l
      cases position with
      | zero =>
          have hHead : line = .label l :=
            Option.some.inj hLine
          simp [entry, hHead, label?]
      | succ position =>
          have hRest : rest[position]? = some (.label l) :=
            hLine
          have hPos := count_labels_pos hRest
          have hNe : line.label? ≠ some l := by
            intro hEq
            cases line with
            | instruction i => cases hEq
            | label k =>
                have hKl : k = l := Option.some.inj hEq
                rw [hKl, labels_label, List.count_cons_self]
                  at hCount
                omega
          have hDistinctRest : Distinct rest := by
            intro k
            have hLe := hDistinct k
            cases line with
            | instruction i => exact hLe
            | label j =>
                rw [labels_label, List.count_cons] at hLe
                omega
          simp [entry, hNe, ih hDistinctRest hRest]

/- A label that is not placed is not found. -/
theorem entry_eq_none
    (hCount : (labels code).count l = 0) :
    entry code l = none := by
  induction code with
  | nil => rfl
  | cons line rest ih =>
      cases line with
      | instruction i =>
          simp [entry, label?, ih hCount]
      | label k =>
          rw [labels_label, List.count_cons] at hCount
          have hNe : k ≠ l := by
            intro hEq
            simp [hEq] at hCount
          have hRest : (labels rest).count l = 0 := by
            omega
          simp [entry, label?, hNe, ih hRest]

end Line

namespace Builder

variable {code : List Line} {base : Nat} {b b' : Builder}
variable {own : List Label}

/- The position of the next line, counted from a base. -/
def here
    (base : Nat)
    (b : Builder) : Nat :=
  b.lines.size - base

/- What was written since a base is the start of a code. -/
structure Within
    (code : List Line)
    (base : Nat)
    (b : Builder) : Prop where
  base_le : base ≤ b.lines.size
  written : b.lines.toList.drop base <+: code

theorem here_write
    (line : Line)
    (hBase : base ≤ b.lines.size) :
    (b.write line).here base = b.here base + 1 := by
  simp only [here, write, Array.size_push]
  omega

/- What was written before is the start of the code, too. -/
theorem Within.back
    (hWithin : b'.Within code base)
    (hLines : b.lines.toList <+: b'.lines.toList)
    (hBase : base ≤ b.lines.size) :
    b.Within code base where
  base_le := hBase
  written := by
    rcases hLines with ⟨rest, hRest⟩
    have hBase' : base ≤ b.lines.toList.length := by
      simpa using hBase
    have hPrefix := hWithin.written
    rw [← hRest, List.drop_append_of_le_length hBase']
      at hPrefix
    exact (List.prefix_append _ rest).trans hPrefix

/- More lines leave the base behind. -/
theorem base_le_of_prefix
    (hBase : base ≤ b.lines.size)
    (hLines : b.lines.toList <+: b'.lines.toList) :
    base ≤ b'.lines.size := by
  have hLength := hLines.length_le
  simp only [Array.length_toList] at hLength
  omega

theorem prefix_place
    (b : Builder)
    (l : Label) :
    b.lines.toList <+: (b.place l).lines.toList := by
  unfold place
  by_cases hBetween : b.between = true
  · simp [hBetween, write]
  · simp [hBetween, write, List.append_assoc]

/- A line written stands in the code. -/
theorem Within.line
    {line : Line}
    (hWithin : (b.write line).Within code base)
    (hBase : base ≤ b.lines.size) :
    code[b.here base]? = some line := by
  have hBase' : base ≤ b.lines.toList.length := by
    simpa using hBase
  have hPrefix := hWithin.written
  simp only [write, Array.toList_push] at hPrefix
  rw [List.drop_append_of_le_length hBase'] at hPrefix
  have hLength :
      b.here base = (b.lines.toList.drop base).length := by
    simp [here]
  rcases hPrefix with ⟨rest, hRest⟩
  rw [← hRest, hLength, List.append_assoc,
    List.getElem?_append_right (Nat.le_refl _)]
  simp

------------------------------------------------------------
-- Steps at the End of What is Written
------------------------------------------------------------

variable {V W : Type} {I : Interpretation V W}
variable {m : Machine V W}

/- An open block goes on with the instruction appended. -/
theorem append_of_open
    (i : Instruction)
    (hOpen : b.between = false) :
    b.append i =
      { b.write (.instruction i) with
        between := i.endsBlock } := by
  simp [append, reopen, hOpen]

theorem here_append
    (i : Instruction)
    (hOpen : b.between = false)
    (hBase : base ≤ b.lines.size) :
    (b.append i).here base = b.here base + 1 := by
  rw [append_of_open i hOpen]
  exact here_write (.instruction i) hBase

/- The machine executes an instruction appended. -/
theorem Within.step_append
    {i : Instruction}
    (hWithin : (b.append i).Within code base)
    (hBase : base ≤ b.lines.size)
    (hOpen : b.between = false)
    (hControl : m.control = .line (b.here base)) :
    I.step code m = I.exec m (b.here base) i := by
  rw [append_of_open i hOpen] at hWithin
  have hWrite : (b.write (.instruction i)).Within
    code base :=
    ⟨hWithin.base_le, hWithin.written⟩
  have hLine := hWrite.line hBase
  simp [Interpretation.step, hControl, hLine]

end Builder

/- A machine enters the block of a label. -/
def Machine.enter
    {V W : Type}
    (m : Machine V W)
    (l : Label)
    (position : Nat) : Machine V W :=
  { m with
    control := .line position
    block := some l
    previous := m.block }

namespace Builder

variable {code : List Line} {base : Nat} {b b' : Builder}
variable {V W : Type} {I : Interpretation V W}
variable {m : Machine V W}

/- What placing a label writes. -/
theorem place_eq
    (b : Builder)
    (l : Label) :
    b.place l =
      { (if b.between then b
          else b.write (.instruction (.jump l))).write
            (.label l)
        with between := false } := rfl

@[simp] theorem between_place
    (b : Builder)
    (l : Label) :
    (b.place l).between = false := rfl

@[simp] theorem nextTemporary_place
    (b : Builder)
    (l : Label) :
    (b.place l).nextTemporary = b.nextTemporary := by
  rw [place_eq]
  split <;> rfl

@[simp] theorem loopExits_place
    (b : Builder)
    (l : Label) :
    (b.place l).loopExits = b.loopExits := by
  rw [place_eq]
  split <;> rfl

/- A label that was placed is found behind its line. -/
theorem Within.entry_place
    (hWithin : (b.place l).Within code base)
    (hBase : base ≤ b.lines.size)
    (hDistinct : Line.Distinct code) :
    Line.entry code l = some ((b.place l).here base) := by
  rw [place_eq] at hWithin ⊢
  generalize hClosed :
    (if b.between then b
      else b.write (.instruction (.jump l))) = closed at *
  have hSize : base ≤ closed.lines.size := by
    rw [← hClosed]
    split
    · exact hBase
    · simp only [write, Array.size_push]
      omega
  have hWrite : (closed.write (.label l)).Within
    code base :=
    ⟨hWithin.base_le, hWithin.written⟩
  have hEntry :=
    Line.entry_eq_some hDistinct (hWrite.line hSize)
  rw [hEntry, ← here_write (b := closed) (.label l) hSize]
  rfl

end Builder

/- A machine on the way to a label gets behind it. -/
theorem Interpretation.step_target
    {V W : Type}
    {I : Interpretation V W}
    {code : List Line}
    {m : Machine V W}
    {position : Nat}
    (hEntry : Line.entry code l = some position)
    (hControl : m.control = .target l) :
    I.step code m = some (m.enter l position) := by
  simp only [step, hControl, hEntry, Option.map_some]
  rfl

namespace Builder

variable {code : List Line} {base : Nat} {b : Builder}
variable {V W : Type} {I : Interpretation V W}
variable {m : Machine V W}

/- A machine on the way to a label placed gets behind it. -/
theorem Within.step_place
    (hWithin : (b.place l).Within code base)
    (hBase : base ≤ b.lines.size)
    (hDistinct : Line.Distinct code)
    (hControl : m.control = .target l) :
    I.step code m =
      some (m.enter l ((b.place l).here base)) :=
  Interpretation.step_target
    (hWithin.entry_place hBase hDistinct) hControl

/-
  Control comes to a label that is placed next: on the way
  to it, or at the end of an open block.
-/
def Awaits
    (base : Nat)
    (b : Builder)
    (l : Label)
    (m : Machine V W) : Prop :=
  m.control = .target l ∨
    (b.between = false ∧ m.control = .line (b.here base))

/- An open block before a label is closed by a jump. -/
theorem Within.jump_of_place
    (hWithin : (b.place l).Within code base)
    (hBase : base ≤ b.lines.size)
    (hOpen : b.between = false) :
    (b.append (.jump l)).Within code base := by
  rw [append_of_open _ hOpen]
  refine ⟨?_, ?_⟩
  · simp only [write, Array.size_push]
    omega
  · have hPrefix := hWithin.written
    have hLength :
        base ≤ (b.lines.toList ++
          [Line.instruction (.jump l)]).length := by
      simp only [List.length_append, Array.length_toList]
      omega
    simp only [place_eq, hOpen, Bool.false_eq_true,
      if_false, write, Array.toList_push] at hPrefix ⊢
    rw [List.drop_append_of_le_length hLength] at hPrefix
    exact (List.prefix_append _ _).trans hPrefix

/- The machine gets behind a label that is placed. -/
theorem Within.reaches_place
    (hWithin : (b.place l).Within code base)
    (hBase : base ≤ b.lines.size)
    (hDistinct : Line.Distinct code)
    (hAwaits : b.Awaits base l m) :
    I.Reaches code m
      (m.enter l ((b.place l).here base)) := by
  rcases hAwaits with hTarget | ⟨hOpen, hLine⟩
  · exact .single
      (hWithin.step_place hBase hDistinct hTarget)
  · have hJump := hWithin.jump_of_place hBase hOpen
    have hFirst :
        I.step code m = some (m.goto (.target l)) :=
      hJump.step_append hBase hOpen hLine
    have hSecond :=
      hWithin.step_place (I := I) (m := m.goto (.target l))
        hBase hDistinct rfl
    exact (Interpretation.Reaches.single hFirst).trans
      (.single hSecond)

end Builder

------------------------------------------------------------
-- Operands
------------------------------------------------------------

mutual

/- All temporaries of an operand have lesser numbers. -/
def Value.Below
    (bound : Nat) :
    Value → Prop
| .temporary n _ => n < bound
| .array elements _ => Value.AllBelow bound elements
| _ => True

/- All temporaries of some operands have lesser numbers. -/
def Value.AllBelow
    (bound : Nat) :
    List Value → Prop
| [] => True
| v :: rest => v.Below bound ∧ Value.AllBelow bound rest

end

mutual

theorem Value.Below.mono
    {few many : Nat}
    (hLe : few ≤ many) :
    ∀ {v : Value}, v.Below few → v.Below many
| .temporary n t, h => by
    rw [Value.Below] at h ⊢
    omega
| .array elements t, h => by
    rw [Value.Below] at h ⊢
    exact Value.AllBelow.mono hLe h
| .int _ _, _ => by simp [Value.Below]
| .float _ _, _ => by simp [Value.Below]
| .bool _ _, _ => by simp [Value.Below]
| .named _ _, _ => by simp [Value.Below]
| .zero _, _ => by simp [Value.Below]
| .void _, _ => by simp [Value.Below]

theorem Value.AllBelow.mono
    {few many : Nat}
    (hLe : few ≤ many) :
    ∀ {vs : List Value},
      Value.AllBelow few vs → Value.AllBelow many vs
| [], _ => by simp [Value.AllBelow]
| v :: rest, h => by
    rw [Value.AllBelow] at h ⊢
    exact ⟨Value.Below.mono hLe h.1,
      Value.AllBelow.mono hLe h.2⟩

end

namespace Interpretation

variable {V W : Type}

mutual

/- An operand keeps its value while its temporaries do. -/
theorem operand_eq_of_below
    (I : Interpretation V W)
    {bound : Nat}
    {before after : Nat → V}
    (hKept : ∀ n < bound, after n = before n) :
    ∀ {v : Value}, v.Below bound →
      I.operand after v = I.operand before v
| .temporary n t, h => by
    rw [Value.Below] at h
    rw [operand, operand]
    exact hKept n h
| .array elements t, h => by
    rw [Value.Below] at h
    rw [operand, operand, operands_eq_of_below I hKept h]
| .int _ _, _ => by rw [operand, operand]
| .float _ _, _ => by rw [operand, operand]
| .bool _ _, _ => by rw [operand, operand]
| .named _ _, _ => by rw [operand, operand]
| .zero _, _ => by rw [operand, operand]
| .void _, _ => by rw [operand, operand]

/- Operands keep their values while their temporaries do. -/
theorem operands_eq_of_below
    (I : Interpretation V W)
    {bound : Nat}
    {before after : Nat → V}
    (hKept : ∀ n < bound, after n = before n) :
    ∀ {vs : List Value}, Value.AllBelow bound vs →
      I.operands after vs = I.operands before vs
| [], _ => by rw [operands, operands]
| v :: rest, h => by
    rw [Value.AllBelow] at h
    rw [operands, operands, operand_eq_of_below I hKept h.1,
      operands_eq_of_below I hKept h.2]

end

/-
  A machine gets to the end of what was written, keeping all
  temporaries below a bound.
-/
structure Passes
    (I : Interpretation V W)
    (code : List Line)
    (base bound : Nat)
    (b : Builder)
    (m m' : Machine V W) : Prop where
  reaches : I.Reaches code m m'
  control : m'.control = .line (b.here base)
  kept : ∀ n < bound, m'.registers n = m.registers n

variable {I : Interpretation V W} {code : List Line}
variable {base bound bound₁ : Nat} {b b₁ b₂ : Builder}
variable {m m₁ m₂ : Machine V W}

theorem Passes.refl
    (I : Interpretation V W)
    (code : List Line)
    (bound : Nat)
    (hControl : m.control = .line (b.here base)) :
    I.Passes code base bound b m m where
  reaches := .refl I code m
  control := hControl
  kept := fun _ _ => rfl

theorem Passes.trans
    (h₁ : I.Passes code base bound b₁ m m₁)
    (h₂ : I.Passes code base bound₁ b₂ m₁ m₂)
    (hLe : bound ≤ bound₁) :
    I.Passes code base bound b₂ m m₂ where
  reaches := h₁.reaches.trans h₂.reaches
  control := h₂.control
  kept := by
    intro n hLt
    rw [h₂.kept n (Nat.lt_of_lt_of_le hLt hLe),
      h₁.kept n hLt]

end Interpretation

namespace Builder

variable {own : List Label} {b b' : Builder}

/- The lines that a later state has in addition. -/
def emitted (b b' : Builder) : List Line :=
  b'.lines.toList.drop b.lines.size

namespace Writes

theorem lines_eq
    (hWrites : Writes own b b') :
    b'.lines.toList = b.lines.toList ++ b.emitted b' := by
  rcases hWrites.lines with ⟨rest, hRest⟩
  have hDrop :
      (b.lines.toList ++ rest).drop b.lines.size =
        rest := by
    rw [← Array.length_toList, List.drop_left]
  rw [emitted, ← hRest, hDrop]

theorem placed_eq
    (hWrites : Writes own b b')
    (l : Label) :
    b'.placed l =
      b.placed l +
        (Line.labels (b.emitted b')).count l := by
  rw [placed, hWrites.lines_eq, Line.labels_append,
    List.count_append]
  rfl

/- No label is placed twice in what was emitted. -/
theorem distinct
    (hWrites : Writes own b b')
    (hOwn : own.Nodup) :
    Line.Distinct (b.emitted b') := by
  intro l
  have hPlaced := hWrites.placed_eq l
  by_cases hLt : l.number < b.nextLabel
  · have hOld := hWrites.old l hLt
    have hOnce := List.nodup_iff_count.mp hOwn l
    omega
  · have hFresh := hWrites.fresh l (Nat.le_of_not_lt hLt)
    omega

/- A label of others is not placed in what was emitted. -/
theorem entry_eq_none
    {l : Label}
    (hWrites : Writes own b b')
    (hReserved : l.number < b.nextLabel)
    (hOwn : l ∉ own) :
    Line.entry (b.emitted b') l = none := by
  apply Line.entry_eq_none
  have hPlaced := hWrites.placed_eq l
  have hOld := hWrites.old l hReserved
  rw [List.count_eq_zero_of_not_mem hOwn] at hOld
  omega

theorem size_le
    (hWrites : Writes own b b') :
    b.lines.size ≤ b'.lines.size := by
  have hLength := hWrites.lines.length_le
  simpa using hLength

/- What was emitted can be executed on its own. -/
theorem within
    (hWrites : Writes own b b') :
    b'.Within (b.emitted b') b.lines.size :=
  ⟨hWrites.size_le, List.prefix_refl _⟩

end Writes

/- The text starts at its first line. -/
theorem here_start
    (b : Builder) :
    b.here b.lines.size = 0 := by
  simp [here]

/- The text ends behind its last line. -/
theorem here_end
    (b b' : Builder) :
    b'.here b.lines.size = (b.emitted b').length := by
  simp [here, emitted]

end Builder

namespace Interpretation

variable {V W : Type} {I : Interpretation V W}
variable {code : List Line} {m : Machine V W}

theorem halted_of_end
    (hControl : m.control = .line code.length) :
    I.Halted code m := by
  simp [Halted, step, hControl]

theorem halted_of_target
    (hControl : m.control = .target l)
    (hEntry : Line.entry code l = none) :
    I.Halted code m := by
  simp [Halted, step, hControl, hEntry]

theorem halted_of_returned
    (hControl : m.control = .returned) :
    I.Halted code m := by
  simp [Halted, step, hControl]

end Interpretation

end Bracketry
