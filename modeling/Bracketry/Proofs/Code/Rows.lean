import Bracketry.Proofs.Code.Vocabulary

/-
  This file divides the text of a listing into its lines.

  The parts of a row have no line end and no sign of a
  function in them, so the rows are found again as the lines
  of the text.  Rows that open a function start with a word
  of their own, rows of records with a percent sign, and the
  name of a function stands only in such an opening and in
  calls.

  Main declarations:
    * `Instruction.text_plain`
    * `Listing.rows` and `Listing.text_eq`
    * `Listing.Proper.lines_eq`
-/

namespace Bracketry

section

/- Characters of a plain text. -/
abbrev Text.PlainChars (cs : List Char) : Prop :=
  ∀ c ∈ cs, c ∉ ['\n', '\r', '@']

open Text (Plain PlainChars Unbroken)

theorem Text.plain_of_isDigit
    {c : Char}
    (hDigit : c.isDigit = true) :
    c ∉ ['\n', '\r', '@'] := by
  intro hMem
  simp only [List.mem_cons, List.not_mem_nil, or_false]
    at hMem
  rcases hMem with rfl | rfl | rfl <;> cases hDigit

theorem Text.plain_nat
    (n : Nat) :
    Plain (toString n) :=
  fun _ hMem =>
    Text.plain_of_isDigit (Identifier.isDigit_of_mem hMem)

theorem Text.plain_int
    (n : Int) :
    Plain (toString n) := by
  cases n with
  | ofNat m => exact Text.plain_nat m
  | negSucc m =>
      exact Text.Lacks.append (.of_all rfl)
        (Text.plain_nat _)

theorem Text.plain_bool
    (b : Bool) :
    Plain (toString b) := by
  cases b
  · exact .of_all rfl
  · exact .of_all rfl

namespace Double

variable (d : Decimal)

/- Hexadecimal digits are digits and letters. -/
theorem hexDigits_plain
    (n : Nat) :
    ∀ c ∈ Nat.toDigits 16 n, c.toUpper ∉
      ['\n', '\r', '@'] := by
  have hDigit :
      ∀ d < 16, (Nat.digitChar d).toUpper ∉
        ['\n', '\r', '@'] := by
    decide
  induction n using Nat.strongRecOn with
  | ind n ih =>
      rw [Nat.toDigits_eq_if (by decide)]
      split
      · rename_i hLess
        exact List.forall_mem_singleton.mpr (hDigit n hLess)
      · rename_i hMore
        refine List.forall_mem_append.mpr
          ⟨ih (n / 16) (by omega), ?_⟩
        exact List.forall_mem_singleton.mpr
          (hDigit _ (Nat.mod_lt _ (by decide)))

theorem hexText_plain
    (x : Double) :
    Plain x.hexText := by
  unfold hexText
  intro c hMem
  rw [String.toList_ofList, List.mem_append] at hMem
  rcases hMem with hZero | hDigit
  · rw [List.eq_of_mem_replicate hZero]
    decide
  · rcases List.mem_map.mp hDigit with ⟨d, hIn, rfl⟩
    exact hexDigits_plain _ d hIn

theorem digits_plain :
    PlainChars d.digits :=
  fun _ hMem => Text.plain_of_isDigit
    (Nat.isDigit_of_mem_toDigits (by decide)
      (by decide) hMem)

/- The digits around the point come from the coefficient. -/
theorem positional_plain :
    PlainChars d.positional.1 ∧
      PlainChars d.positional.2 := by
  have hZeros : ∀ n, PlainChars (List.replicate n '0') := by
    intro n c hMem
    rw [List.eq_of_mem_replicate hMem]
    decide
  unfold Decimal.positional
  split
  · exact ⟨List.forall_mem_append.mpr
      ⟨digits_plain d, hZeros _⟩, List.forall_mem_nil _⟩
  · have hPadded :=
      fun n => List.forall_mem_append.mpr
        ⟨hZeros n, digits_plain d⟩
    rw [List.splitAt_eq]
    exact ⟨fun c hMem =>
      hPadded _ c (List.mem_of_mem_take hMem),
      fun c hMem => hPadded _ c (List.mem_of_mem_drop hMem)⟩

theorem scientific_plain :
    PlainChars d.scientific.1 ∧
      PlainChars d.scientific.2 := by
  unfold Decimal.scientific
  rw [List.splitAt_eq]
  exact ⟨fun c hMem =>
    digits_plain d c (List.mem_of_mem_take hMem),
    fun c hMem =>
      digits_plain d c (List.mem_of_mem_drop hMem)⟩

theorem text_plain
    (x : Double) :
    Plain x.operandText := by
  have hSign : Plain x.signText := by
    unfold signText
    split
    · exact .of_all rfl
    · exact .of_all rfl
  have hNumber :
      ∀ {whole places : List Char} {power : String},
        PlainChars whole → PlainChars places → Plain power →
        Plain (x.signText ++
          String.ofList (whole ++
            '.' :: if places.isEmpty then ['0'] else
              places) ++
          power) := by
    intro whole places power hWhole hPlaces hPower
    refine (hSign.append ?_).append hPower
    intro c hMem
    rw [String.toList_ofList] at hMem
    rcases List.mem_append.mp hMem with hIn | hIn
    · exact hWhole c hIn
    · rcases List.mem_cons.mp hIn with rfl | hIn
      · decide
      · split at hIn
        · rw [List.mem_singleton.mp hIn]
          decide
        · exact hPlaces c hIn
  unfold operandText
  split
  · exact Text.Lacks.append (.of_all rfl) x.hexText_plain
  · dsimp only
    by_cases hPlain :
        -4 ≤ x.shortest.magnitude ∧
          x.shortest.magnitude < 16
    · rw [decide_eq_true hPlain, if_pos rfl, if_pos rfl]
      have hDigits := positional_plain x.shortest
      exact hNumber hDigits.1 hDigits.2 (.of_all rfl)
    · rw [decide_eq_false hPlain, if_neg Bool.false_ne_true,
        if_neg Bool.false_ne_true]
      have hDigits := scientific_plain x.shortest
      exact hNumber hDigits.1 hDigits.2
        (Text.Lacks.append (.of_all rfl) (Text.plain_int _))

end Double

------------------------------------------------------------
-- Instructions
------------------------------------------------------------

theorem Ty.text_plain
    {records : List Record}
    (hNames : ∀ r ∈ records, Plain r.name) :
    ∀ {t : Ty}, t.Known records → Plain t.text
| .primitive kind, _ => by
    cases kind
    all_goals exact .of_all rfl
| .pointer t, hKnown => by
    have hTarget := text_plain (t := t) hNames hKnown
    rw [text]
    exact .append hTarget (.of_all rfl)
| .array n t, hKnown => by
    have hElement := text_plain (t := t) hNames hKnown
    rw [text]
    simp only [Text.Lacks.append_iff]
    exact ⟨⟨⟨⟨.of_all rfl, Text.plain_nat n⟩, .of_all rfl⟩,
      hElement⟩, .of_all rfl⟩
| .record _ _ _, hKnown => by
    rcases hKnown with ⟨r, hMem, hType⟩
    cases hType
    rw [text]
    exact .append (.of_all rfl) (hNames r hMem)

mutual

theorem Value.text_plain
    {g : Globals}
    (hNames : ∀ r ∈ g.records, Plain r.name)
    (v : Value)
    (hTypes : ∀ t ∈ v.types, t.Known g.records)
    (hRegisters : ∀ name ∈ v.names, Plain name) :
    Plain v.text := by
  cases v with
  | int n t =>
      rw [Value.text]
      exact Text.plain_int n
  | float x t =>
      rw [Value.text]
      exact x.text_plain
  | bool b t =>
      rw [Value.text]
      exact Text.plain_bool b
  | temporary n t =>
      rw [Value.text]
      exact .append (.of_all rfl) (Text.plain_nat n)
  | named name t =>
      rw [Value.text]
      exact hRegisters name (by simp)
  | array elements t =>
      rw [Value.types, List.forall_mem_cons] at hTypes
      rw [Value.names] at hRegisters
      rw [Value.text]
      simp only [Text.Lacks.append_iff]
      refine ⟨⟨.of_all rfl, ?_⟩, .of_all rfl⟩
      exact .intercalate (.of_all rfl)
        (Value.typedAll_plain hNames elements hTypes.2
          hRegisters)
  | zero t =>
      rw [Value.text]
      exact .of_all rfl
  | void t =>
      rw [Value.text]
      exact .of_all rfl

theorem Value.typedAll_plain
    {g : Globals}
    (hNames : ∀ r ∈ g.records, Plain r.name)
    (vs : List Value)
    (hTypes : ∀ t ∈ Value.allTypes vs, t.Known g.records)
    (hRegisters : ∀ name ∈ Value.allNames vs, Plain name) :
    ∀ text ∈ Value.typedAll vs, Plain text := by
  cases vs with
  | nil => exact List.forall_mem_nil _
  | cons v rest =>
      rw [Value.allTypes, List.forall_mem_append] at hTypes
      rw [Value.allNames, List.forall_mem_append]
        at hRegisters
      rw [Value.typedAll]
      refine List.forall_mem_cons.mpr ⟨?_, ?_⟩
      · have hProper : v.Proper g :=
          ⟨hTypes.1, hRegisters.1⟩
        simp only [Text.Lacks.append_iff]
        exact ⟨⟨Ty.text_plain hNames hProper.ty,
          .of_all rfl⟩, Value.text_plain hNames v hTypes.1
            hRegisters.1⟩
      · exact Value.typedAll_plain hNames rest hTypes.2
          hRegisters.2

end

theorem Arithmetic.opcode_plain
    (op : Arithmetic)
    (t : Ty) :
    Plain (op.opcode t) := by
  unfold Arithmetic.opcode
  cases op
  all_goals
    dsimp only
    repeat' split
    all_goals exact .of_all rfl

theorem Comparison.opcode_plain
    (op : Comparison)
    (t : Ty) :
    Plain (op.opcode t) := by
  unfold Comparison.opcode
  cases op <;> split <;> exact .of_all rfl

theorem Label.target_plain
    (l : Label) :
    Plain l.target :=
  .append (.of_all rfl)
    (.append (.of_all rfl) (Text.plain_nat _))

theorem Instruction.define_plain
    (dest : Nat) :
    Plain (Instruction.define dest) :=
  .append (.append (.of_all rfl) (Text.plain_nat dest))
    (.of_all rfl)

section

variable {g : Globals}
variable (hNames : ∀ r ∈ g.records, Plain r.name)
include hNames

theorem Value.Proper.text
    {v : Value}
    (hProper : v.Proper g) :
    Plain v.text :=
  Value.text_plain hNames v hProper.types hProper.names

theorem Value.Proper.typed
    {v : Value}
    (hProper : v.Proper g) :
    Plain v.typed :=
  .append (.append (Ty.text_plain hNames hProper.ty)
    (.of_all rfl)) (Value.Proper.text hNames hProper)

/- Nothing but a call speaks of functions. -/
theorem Instruction.text_plain
    {i : Instruction}
    (hProper : i.Proper g)
    (hOther :
      ∀ dest t callee args, i ≠ .call dest t callee args) :
    Plain i.text := by
  have hType := fun {t : Ty} =>
    Ty.text_plain (t := t) hNames
  have hValue := fun {v : Value} =>
    Value.Proper.text (v := v) hNames
  have hTyped := fun {v : Value} =>
    Value.Proper.typed (v := v) hNames
  cases i with
  | allocate slot t =>
      exact .append (.append hProper.1 (.of_all rfl))
        (hType hProper.2)
  | load dest t address =>
      rw [text]
      simp only [Text.Lacks.append_iff, and_assoc]
      exact ⟨define_plain dest, .of_all rfl,
        hType hProper.1, .of_all rfl,
        hType hProper.1, .of_all rfl, hValue hProper.2⟩
  | store value address =>
      rw [text]
      simp only [Text.Lacks.append_iff, and_assoc]
      exact ⟨.of_all rfl, hTyped hProper.1, .of_all rfl,
        hType hProper.1.ty, .of_all rfl, hValue hProper.2⟩
  | arithmetic dest op t left right =>
      rw [text]
      simp only [Text.Lacks.append_iff, and_assoc]
      exact ⟨define_plain dest, op.opcode_plain t,
        .of_all rfl, hType hProper.1, .of_all rfl,
          hValue hProper.2.1, .of_all rfl,
        hValue hProper.2.2⟩
  | negate dest t operand =>
      rw [text]
      split
      · simp only [Text.Lacks.append_iff, and_assoc]
        exact ⟨define_plain dest, .of_all rfl,
          hType hProper.1, .of_all rfl, hValue hProper.2⟩
      · simp only [Text.Lacks.append_iff, and_assoc]
        exact ⟨define_plain dest, .of_all rfl,
          hType hProper.1, .of_all rfl, hValue hProper.2⟩
  | compare dest op t left right =>
      rw [text]
      simp only [Text.Lacks.append_iff, and_assoc]
      exact ⟨define_plain dest, op.opcode_plain t,
        .of_all rfl, hType hProper.1, .of_all rfl,
          hValue hProper.2.1, .of_all rfl,
        hValue hProper.2.2⟩
  | convert dest how value target =>
      have hHow : Plain how.text := by
        cases how <;> exact .of_all rfl
      rw [text]
      simp only [Text.Lacks.append_iff, and_assoc]
      exact ⟨define_plain dest, hHow, .of_all rfl,
        hTyped hProper.2, .of_all rfl, hType hProper.1⟩
  | element dest container base index part =>
      rw [text]
      simp only [Text.Lacks.append_iff, and_assoc]
      exact ⟨define_plain dest, .of_all rfl,
        hType hProper.1, .of_all rfl,
        hType hProper.1, .of_all rfl, hValue hProper.2.1,
          .of_all rfl,
        hValue hProper.2.2⟩
  | call dest t callee args =>
      exact absurd rfl (hOther dest t callee args)
  | merge dest onTrue onFalse =>
      rw [text]
      simp only [Text.Lacks.append_iff, and_assoc]
      exact ⟨define_plain dest, .of_all rfl,
        onTrue.target_plain,
        .of_all rfl, onFalse.target_plain, .of_all rfl⟩
  | jump target =>
      exact .append (.of_all rfl) target.target_plain
  | branch condition onTrue onFalse =>
      rw [text]
      simp only [Text.Lacks.append_iff, and_assoc]
      exact ⟨.of_all rfl, hValue hProper, .of_all rfl,
        onTrue.target_plain,
        .of_all rfl, onFalse.target_plain⟩
  | ret value =>
      cases value with
      | none => exact .of_all rfl
      | some value =>
          exact .append (.of_all rfl)
            (hTyped (hProper value List.mem_cons_self))
  | verbatim text => exact hProper.elim

/- No instruction breaks a line. -/
theorem Instruction.text_unbroken
    {i : Instruction}
    (hHeaders : ∀ p ∈ g.prototypes, Unbroken p.name.storage)
    (hProper : i.Proper g) :
    Unbroken i.text := by
  cases i with
  | call dest t callee args =>
      rcases hProper with ⟨hType, hArgs, p, hMem, rfl, -⟩
      have hStart :
          Unbroken ((dest.map define).getD "") := by
        cases dest with
        | none => exact .of_all rfl
        | some dest => exact (define_plain dest).unbroken
      rw [text]
      simp only [Text.Lacks.append_iff, and_assoc]
      refine ⟨hStart, .of_all rfl,
        (Ty.text_plain hNames hType).unbroken,
        .of_all rfl, hHeaders p hMem, .of_all rfl, ?_,
          .of_all rfl⟩
      refine .intercalate (.of_all rfl) ?_
      rw [List.forall_mem_map]
      exact fun v hIn =>
        (Value.Proper.typed hNames (hArgs v hIn)).unbroken
  | _ =>
      exact (Instruction.text_plain hNames hProper
        (by intros; simp)).unbroken

end

end

open Text (Plain Unbroken)

------------------------------------------------------------
-- Rows
------------------------------------------------------------

theorem Text.ofLines_map
    {α : Type}
    (row : α → String)
    (items : List α) :
    Text.ofLines (items.map row) =
      String.join
        (items.map fun item => row item ++ "\n") := by
  rw [Text.ofLines, List.map_map]
  rfl

theorem Text.ofLines_flatMap
    {α : Type}
    (rows : α → List String)
    (items : List α) :
    Text.ofLines (items.flatMap rows) =
      String.join (items.map fun item =>
        Text.ofLines (rows item)) := by
  induction items with
  | nil => rfl
  | cons item rest ih =>
      rw [List.flatMap_cons, Text.ofLines_append, ih,
        List.map_cons, String.join_cons]

/- A line of code without its end. -/
def Line.row : Line → String
| .label l => l.text ++ ":"
| .instruction i => "  " ++ i.text

theorem Line.text_eq
    (line : Line) :
    line.text = line.row ++ "\n" := by
  cases line with
  | label l =>
      exact (String.append_assoc : l.text ++ ":" ++
        "\n" = _).symm
  | instruction i => rfl

theorem Line.label_plain
    (l : Label) :
    Plain (Line.row (.label l)) :=
  .append (.append (.of_all rfl) (Text.plain_nat _))
    (.of_all rfl)

/- The line that defines a record, without its end. -/
def Record.row (r : Record) : String :=
  "%" ++ r.name ++ " = " ++ r.definition

namespace Definition

/- The lines of a function, and the empty one behind it. -/
def rows (d : Definition) : List String :=
  d.header :: d.lines.map Line.row ++ ["\x7d", ""]

theorem text_eq
    (d : Definition) :
    d.text = Text.ofLines d.rows := by
  have hLines : d.lines.map Line.text =
      d.lines.map fun line => line.row ++ "\n" :=
    List.map_congr_left fun line _ => line.text_eq
  rw [text, rows, Text.ofLines_append,
    ← List.singleton_append,
    Text.ofLines_append, Text.ofLines_map, hLines]
  simp [Text.ofLines]

end Definition

namespace Listing

variable (l : Listing)

/- All lines of a listing. -/
def rows (l : Listing) : List String :=
  l.records.map Record.row ++
    (if l.records.isEmpty then [] else [""]) ++
    l.definitions.flatMap Definition.rows

theorem text_eq :
    l.text = Text.ofLines l.rows := by
  have hDefinitions : l.definitions.map Definition.text =
      l.definitions.map fun d => Text.ofLines d.rows :=
    List.map_congr_left fun d _ => d.text_eq
  have hGap : Text.ofLines
      (if l.records.isEmpty then [] else [""]) =
      if l.records.isEmpty then "" else "\n" := by
    split <;> rfl
  rw [text, rows, Text.ofLines_append, Text.ofLines_append,
    Text.ofLines_map, Text.ofLines_flatMap,
      hDefinitions, hGap]
  rfl

/- What a row of a listing can be. -/
theorem mem_rows
    {l : Listing}
    {row : String}
    (hMem : row ∈ l.rows) :
    (∃ r ∈ l.records, row = r.row) ∨
      (∃ d ∈ l.definitions, row = d.header) ∨
      (∃ d ∈ l.definitions, ∃ line ∈ d.lines,
        row = line.row) ∨
      row = "\x7d" ∨ row = "" := by
  rw [rows, List.mem_append, List.mem_append, List.mem_map,
    List.mem_flatMap] at hMem
  rcases hMem with
    (⟨r, hRecord, rfl⟩ | hGap) | ⟨d, hDefinition, hRow⟩
  · exact .inl ⟨r, hRecord, rfl⟩
  · split at hGap
    · cases hGap
    · rw [List.mem_singleton.mp hGap]
      exact .inr (.inr (.inr (.inr rfl)))
  · rw [Definition.rows, List.mem_append, List.mem_cons,
      List.mem_map] at hRow
    rcases hRow with (rfl | ⟨line, hLine, rfl⟩) | hEnd
    · exact .inr (.inl ⟨d, hDefinition, rfl⟩)
    · exact .inr
        (.inr (.inl ⟨d, hDefinition, line, hLine, rfl⟩))
    · exact .inr (.inr (.inr (by simpa using hEnd)))

/- What picks no line of code picks headers and records. -/
theorem filter_rows
    {picks : String → Bool}
    (hLine : ∀ line : Line, picks line.row = false)
    (hEnd : picks "\x7d" = false)
    (hGap : picks "" = false)
    (l : Listing) :
    l.rows.filter picks =
      (l.records.map Record.row).filter picks ++
        (l.definitions.map Definition.header).filter
          picks := by
  have hEmpty :
      (if l.records.isEmpty then [] else [""]).filter
        picks = [] := by
    split
    · rfl
    · simp [hGap]
  have hDefinition :
      ∀ d : Definition, d.rows.filter picks =
        [d.header].filter picks := by
    intro d
    have hLines : (d.lines.map Line.row).filter picks =
        [] := by
      rw [List.filter_eq_nil_iff, List.forall_mem_map]
      intro line _
      simp [hLine]
    rw [Definition.rows, List.filter_append,
      ← List.singleton_append, List.filter_append, hLines]
    simp [hEnd, hGap]
  have hHeaders :
      (l.definitions.flatMap Definition.rows).filter picks =
        (l.definitions.map Definition.header).filter
          picks := by
    rw [List.filter_flatMap, List.map_eq_flatMap,
      List.filter_flatMap]
    exact congrArg (List.flatMap · l.definitions)
      (funext hDefinition)
  rw [rows, List.filter_append, List.filter_append, hEmpty,
    hHeaders, List.append_nil]

/- A row that opens a function. -/
def opens (row : String) : Bool :=
  "define ".toList.isPrefixOf row.toList

/- A row that starts with a percent sign. -/
def declares (row : String) : Bool :=
  row.toList.head? = some '%'

theorem opens_of_head
    {row : String}
    (hHead : row.toList.head? ≠ some 'd') :
    opens row = false := by
  unfold opens
  cases hText : row.toList with
  | nil => rfl
  | cons c rest =>
      rw [hText] at hHead
      have hNe : 'd' ≠ c :=
        fun hEq => hHead (congrArg some hEq.symm)
      change ('d' :: "efine ".toList).isPrefixOf
        (c :: rest) = false
      rw [List.isPrefixOf_cons_cons, beq_false_of_ne hNe,
        Bool.false_and]

/- The rows that open functions are the headers. -/
theorem opening_rows :
    l.rows.filter opens =
      l.definitions.map Definition.header := by
  have hLine : ∀ line : Line, opens line.row = false := by
    intro line
    refine opens_of_head ?_
    cases line <;> simp [Line.row, Label.text]
  have hHeader : ∀ d : Definition, opens d.header =
      true := by
    intro d
    simp [opens, Definition.header]
  have hRecord : ∀ r : Record, opens r.row = false := by
    intro r
    refine opens_of_head ?_
    simp [Record.row]
  rw [filter_rows hLine rfl rfl, List.filter_eq_nil_iff.mpr,
    List.filter_eq_self.mpr, List.nil_append]
  · rw [List.forall_mem_map]
    exact fun d _ => hHeader d
  · rw [List.forall_mem_map]
    intro r _
    simp [hRecord]

/- The rows with a percent sign are those of records. -/
theorem declaring_rows :
    l.rows.filter declares = l.records.map Record.row := by
  have hLine : ∀ line : Line, declares line.row =
      false := by
    intro line
    cases line <;> simp [declares, Line.row, Label.text]
  have hHeader : ∀ d : Definition, declares d.header =
      false := by
    intro d
    simp [declares, Definition.header]
  have hRecord : ∀ r : Record, declares r.row = true := by
    intro r
    simp [declares, Record.row]
  rw [filter_rows hLine rfl rfl, List.filter_eq_self.mpr,
    List.filter_eq_nil_iff.mpr, List.append_nil]
  · rw [List.forall_mem_map]
    intro d _
    simp [hHeader]
  · rw [List.forall_mem_map]
    exact fun r _ => hRecord r

/- A listing that speaks of what the program has. -/
structure Proper
    (g : Globals)
    (l : Listing) : Prop where
  records : l.records = g.records
  names : ∀ r ∈ g.records, Plain r.name
  members : ∀ r ∈ g.records, ∀ m ∈ r.members,
    m.2.Known g.records
  headers : ∀ p ∈ g.prototypes, Unbroken p.name.storage
  signatures :
    ∀ d ∈ l.definitions,
      Unbroken d.signature.name.storage ∧
        d.signature.returnType.Known g.records ∧
        ∀ x ∈ d.signature.params, x.incoming.Proper g
  instructions :
    ∀ d ∈ l.definitions, ∀ i, Line.instruction i ∈ d.lines →
      i.Proper g

namespace Proper

variable {g : Globals} {l : Listing}

theorem record_plain
    {r : Record}
    (hProper : l.Proper g)
    (hMem : r ∈ l.records) :
    Plain r.row := by
  rw [hProper.records] at hMem
  have hDefinition : Plain r.definition := by
    unfold Record.definition
    split
    · exact .of_all rfl
    · refine .append (.append (.of_all rfl) ?_)
        (.of_all rfl)
      refine .intercalate (.of_all rfl) ?_
      rw [List.forall_mem_map]
      exact fun m hMember =>
        Ty.text_plain hProper.names
          (hProper.members r hMem m hMember)
  unfold Record.row
  simp only [Text.Lacks.append_iff]
  exact ⟨⟨⟨.of_all rfl, hProper.names r hMem⟩, .of_all rfl⟩,
    hDefinition⟩

theorem header_unbroken
    {d : Definition}
    (hProper : l.Proper g)
    (hMem : d ∈ l.definitions) :
    Unbroken d.header := by
  rcases hProper.signatures d hMem with
    ⟨hName, hReturn, hParams⟩
  unfold Definition.header
  simp only [Text.Lacks.append_iff, and_assoc]
  refine ⟨.of_all rfl,
    (Ty.text_plain hProper.names hReturn).unbroken,
    .of_all rfl, hName, .of_all rfl, ?_, .of_all rfl⟩
  refine .intercalate (.of_all rfl) ?_
  rw [List.forall_mem_map]
  exact fun x hIn =>
    (Value.Proper.typed hProper.names
      (hParams x hIn)).unbroken

/- The rows of a listing are the lines of its text. -/
theorem lines_eq
    (hProper : l.Proper g) :
    Text.lines l.text = l.rows.map String.toList := by
  rw [l.text_eq]
  refine Text.lines_ofLines fun row hMem => ?_
  rcases mem_rows hMem with
    ⟨r, hRecord, rfl⟩ | ⟨d, hDefinition, rfl⟩ |
    ⟨d, hDefinition, line, hLine, rfl⟩ | rfl | rfl
  · exact (hProper.record_plain hRecord).unbroken
  · exact hProper.header_unbroken hDefinition
  · cases line with
    | label l => exact (Line.label_plain l).unbroken
    | instruction i =>
        refine .append (.of_all rfl) ?_
        exact Instruction.text_unbroken hProper.names
          hProper.headers
            (hProper.instructions d hDefinition i hLine)
  · exact .of_all rfl
  · exact .of_all rfl

/- Functions are named where they start or are called. -/
theorem naming_rows
    {row : String}
    (hProper : l.Proper g)
    (hMem : row ∈ l.rows)
    (hNames : '@' ∈ row.toList) :
    (∃ d ∈ l.definitions, row = d.header) ∨
      ∃ d ∈ l.definitions, ∃ dest t callee args,
        Line.instruction (.call dest t callee args) ∈
          d.lines ∧ row = "  " ++
            (Instruction.call dest t callee args).text := by
  have hBare : ¬ Plain row := fun hPlain =>
    hPlain '@' hNames (by simp)
  rcases mem_rows hMem with
    ⟨r, hRecord, rfl⟩ | ⟨d, hDefinition, rfl⟩ |
    ⟨d, hDefinition, line, hLine, rfl⟩ | rfl | rfl
  · exact absurd (hProper.record_plain hRecord) hBare
  · exact .inl ⟨d, hDefinition, rfl⟩
  · cases line with
    | label l => exact absurd (Line.label_plain l) hBare
    | instruction i =>
        by_cases hCall : ∃ dest t callee args, i =
          .call dest t callee args
        · rcases hCall with ⟨dest, t, callee, args, rfl⟩
          exact .inr ⟨d, hDefinition, dest, t, callee, args,
            hLine, rfl⟩
        · refine absurd (.append (.of_all rfl) ?_) hBare
          refine Instruction.text_plain hProper.names
            (hProper.instructions d hDefinition i hLine) ?_
          exact fun dest t callee args hEq =>
            hCall ⟨dest, t, callee, args, hEq⟩
  · exact absurd (.of_all rfl) hBare
  · exact absurd (.of_all rfl) hBare

end Proper

end Listing

end Bracketry
