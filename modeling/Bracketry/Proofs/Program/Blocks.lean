import Bracketry.Proofs.Program.Closure

/-
  This file shows that blocks are kept closed: whatever is
  written, a label stands right behind a terminator, nothing
  else does, and the builder knows which of the two it may
  write next.

  A terminator is told from the text of its line alone.
  What the builder notes on the side is compared with that,
  for any operations in any order, with or without faults.
  In a compiled program no block is left open.

  Main declarations:
    * `Line.Alternates` and `Line.blocks`
    * `Builder.Steps.scanned`
    * `Line.isBlock_of_scan`
-/

namespace Bracketry

variable {i : Instruction}

section

------------------------------------------------------------
-- Terminators
------------------------------------------------------------

/- The words that the line of a terminator starts with. -/
def Line.terminators : List String :=
  ["  br ", "  ret", "  unreachable"]

/- Whether a line, as it is written, is a terminator. -/
def Line.isTerminator (line : Line) : Bool :=
  terminators.any fun word => word.isPrefixOf line.text

theorem Line.isTerminator_eq_true
    {line : Line} :
    line.isTerminator = true ↔
      ∃ word ∈ terminators,
        word.toList <+: line.text.toList := by
  simp only [isTerminator, List.any_eq_true,
    String.isPrefixOf, String.startsWith_string_iff]

@[simp]
theorem Line.isTerminator_label
    (l : Label) :
    (Line.label l).isTerminator = false := by
  rw [← Bool.not_eq_true, isTerminator_eq_true]
  simp [terminators, Line.text, Label.text]

/- The end of the line does not matter for how it starts. -/
theorem prefix_line_iff
    {word text : List Char}
    (hLine : '\n' ∉ word) :
    word <+: text ++ ['\n'] ↔ word <+: text := by
  rw [List.prefix_concat_iff]
  refine or_iff_right ?_
  rintro rfl
  exact hLine (by simp)

theorem Line.isTerminator_instruction :
    (Line.instruction i).isTerminator = true ↔
      "br ".toList <+: i.text.toList ∨
        "ret".toList <+: i.text.toList ∨
        "unreachable".toList <+: i.text.toList := by
  have hWord :
      ∀ word : List Char, '\n' ∉ word →
        (' ' :: ' ' ::
          word <+: (Line.instruction i).text.toList ↔
          word <+: i.text.toList) := by
    intro word hLine
    simp only [Line.text, String.toList_append]
    simp [prefix_line_iff hLine]
  rw [isTerminator_eq_true]
  simp only [terminators, List.mem_cons, List.not_mem_nil,
    or_false, exists_eq_or_imp, exists_eq_left]
  exact or_congr (hWord _ (by decide))
    (or_congr (hWord _ (by decide)) (hWord _ (by decide)))

/- What starts in another way is no terminator. -/
theorem Line.isTerminator_of_head
    {c : Char}
    (hHead : i.text.toList.head? = some c)
    (hOther : c ≠ 'b' ∧ c ≠ 'r' ∧ c ≠ 'u') :
    (Line.instruction i).isTerminator = false := by
  rcases List.head?_eq_some_iff.mp hHead with ⟨rest, hText⟩
  rw [← Bool.not_eq_true, isTerminator_instruction, hText]
  simp [hOther.1.symm, hOther.2.1.symm, hOther.2.2.symm]

/- What ends a block is known without its text. -/
theorem Instruction.Marked.isTerminator_eq
    (hMarked : i.Marked) :
    (Line.instruction i).isTerminator = i.endsBlock := by
  cases i with
  | allocate slot t =>
      rcases hMarked with ⟨rest, rfl | rfl⟩
      · exact Line.isTerminator_of_head (c := '%')
          (by simp [text]) (by decide)
      · exact Line.isTerminator_of_head (c := '@')
          (by simp [text]) (by decide)
  | store value address =>
      exact Line.isTerminator_of_head (c := 's')
        (by simp [text]) (by decide)
  | call dest t callee args =>
      cases dest with
      | some n =>
          exact Line.isTerminator_of_head (c := '%')
            (by simp [text, define]) (by decide)
      | none =>
          exact Line.isTerminator_of_head (c := 'c')
            (by simp [text]) (by decide)
  | negate dest t operand =>
      refine Line.isTerminator_of_head (c := '%') ?_
        (by decide)
      by_cases hFloating : t.IsFloating <;>
        simp [text, define, hFloating]
  | jump target =>
      exact Line.isTerminator_instruction.mpr
        (.inl (by simp [text]))
  | branch condition onTrue onFalse =>
      exact Line.isTerminator_instruction.mpr
        (.inl (by simp [text]))
  | ret value =>
      refine Line.isTerminator_instruction.mpr
        (.inr (.inl ?_))
      cases value <;> simp [text]
  | verbatim given =>
      rw [Bool.eq_iff_iff, Line.isTerminator_instruction]
      simp only [text, endsBlock, Bool.or_eq_true,
        String.isPrefixOf, String.startsWith_string_iff,
          or_assoc]
  | _ =>
      exact Line.isTerminator_of_head (c := '%')
        (by simp [text, define]) (by decide)

namespace Line

variable {rest : List Line}

/-
  Follow lines that stand behind a terminator or not, and
  say whether the last of them is one.  There is no answer
  when a label stands elsewhere, or another line in a
  label's place.
-/
@[simp] def scan : Bool → List Line → Option Bool
| between, [] => some between
| true, .label _ :: rest => scan false rest
| false, .instruction i :: rest =>
    scan (Line.instruction i).isTerminator rest
| _, _ => none

theorem scan_append
    (first second : List Line) :
    scan between (first ++ second) =
      (scan between first).bind fun middle =>
        scan middle second := by
  induction first generalizing between with
  | nil => rfl
  | cons line rest ih =>
      cases line with
      | label l =>
          cases between with
          | true => exact ih
          | false => rfl
      | instruction i =>
          cases between with
          | true => rfl
          | false => exact ih

variable {between last : Bool}

/- The lines of both parts are scanned on their own. -/
theorem scan_append_eq_some
    {first second : List Line} :
    scan between (first ++ second) = some last ↔
      ∃ middle, scan between first = some middle ∧
        scan middle second = some last := by
  rw [scan_append, Option.bind_eq_some_iff]

theorem scan_label_eq_some
    {l : Label} :
    scan between (.label l :: rest) = some last ↔
      between = true ∧ scan false rest = some last := by
  cases between <;> simp

theorem scan_instruction_eq_some :
    scan between (.instruction i :: rest) = some last ↔
      between = false ∧
        scan (Line.instruction i).isTerminator rest =
          some last := by
  cases between <;> simp

/- Scanning tells whether the last line is a terminator. -/
theorem isTerminator_of_scan
    {last : Line}
    {front : List Line}
    {between start : Bool}
    (hScan : scan start (front ++ [last]) = some between) :
    between = last.isTerminator := by
  rcases scan_append_eq_some.mp hScan with
    ⟨middle, -, hLast⟩
  cases last with
  | label l =>
      rcases scan_label_eq_some.mp hLast with ⟨-, hEnd⟩
      cases hEnd
      exact (isTerminator_label l).symm
  | instruction i =>
      rcases scan_instruction_eq_some.mp hLast with
        ⟨-, hEnd⟩
      cases hEnd
      rfl

end Line

------------------------------------------------------------
-- Writing
------------------------------------------------------------

namespace Builder

/- The note of the builder is what its lines say. -/
def Scanned (b : Builder) : Prop :=
  Line.scan false b.lines.toList = some b.between

namespace Scanned

variable {b : Builder}

theorem place
    (h : b.Scanned)
    (l : Label) :
    (b.place l).Scanned := by
  unfold Scanned at h ⊢
  have hJump :
      (Line.instruction (.jump l)).isTerminator = true :=
    Instruction.Marked.isTerminator_eq trivial
  cases hBetween : b.between with
  | true =>
      simp [Builder.place, write, hBetween,
        Line.scan_append, h]
  | false =>
      simp [Builder.place, write, hBetween,
        Line.scan_append, h, hJump]

theorem reopen
    (h : b.Scanned) :
    b.reopen.Scanned ∧ b.reopen.between = false := by
  unfold Builder.reopen
  cases hBetween : b.between with
  | true =>
      have hReserved : b.reserve.2.Scanned := h
      exact ⟨hReserved.place _, rfl⟩
  | false => exact ⟨h, hBetween⟩

theorem append
    {i : Instruction}
    (h : b.Scanned)
    (hMarked : i.Marked) :
    (b.append i).Scanned := by
  rcases h.reopen with ⟨hOpen, hBetween⟩
  unfold Scanned at hOpen ⊢
  simp [Builder.append, write, Line.scan_append, hOpen,
    hBetween, hMarked.isTerminator_eq]

theorem jump
    (h : b.Scanned)
    (l : Label) :
    (b.jump l).Scanned := by
  unfold Builder.jump
  cases b.between with
  | true => exact h
  | false => exact h.append trivial

end Scanned

/- The note stays in step with the lines. -/
theorem Steps.scanned
    {b b' : Builder}
    (hSteps : b.Steps Instruction.Marked b')
    (h : b.Scanned) :
    b'.Scanned := by
  induction hSteps with
  | refl => exact h
  | trans _ _ ihFirst ihSecond => exact ihSecond (ihFirst h)
  | reserve => exact h
  | number => exact h
  | place l => exact h.place l
  | jump l => exact h.jump l
  | append hMarked => exact h.append hMarked
  | note slots => exact h
  | exits exits => exact h

end Builder

namespace Line

/- The last of some lines is a terminator. -/
def EndsClosed (lines : List Line) : Prop :=
  ∃ last ∈ lines.getLast?, last.isTerminator = true

/-
  Labels stand right behind terminators and instructions do
  not, and `between` says what stands at the end.
-/
structure Alternates
    (lines : List Line)
    (between : Bool) : Prop where
  noted : between = true ↔ EndsClosed lines
  labels :
    ∀ before l behind, lines = before ++
      .label l :: behind → EndsClosed before
  instructions :
    ∀ before i behind, lines = before ++
      .instruction i :: behind → ¬EndsClosed before

theorem endsClosed_of_scan
    {lines : List Line}
    {between : Bool}
    (hScan : scan false lines = some between) :
    between = true ↔ EndsClosed lines := by
  rcases List.eq_nil_or_concat lines with
    rfl | ⟨front, last, rfl⟩
  · cases hScan
    simp [EndsClosed]
  · rw [List.concat_eq_append] at hScan ⊢
    rw [isTerminator_of_scan hScan]
    simp [EndsClosed]

theorem alternates_of_scan
    {lines : List Line}
    {between : Bool}
    (hScan : scan false lines = some between) :
    Alternates lines between := by
  constructor
  case noted => exact endsClosed_of_scan hScan
  case labels =>
    rintro before l behind rfl
    rcases scan_append_eq_some.mp hScan with
      ⟨middle, hBefore, hRest⟩
    exact (endsClosed_of_scan hBefore).mp
      (scan_label_eq_some.mp hRest).1
  case instructions =>
    rintro before i behind rfl hClosed
    rcases scan_append_eq_some.mp hScan with
      ⟨middle, hBefore, hRest⟩
    have hOpen := (scan_instruction_eq_some.mp hRest).1
    have hBetween :=
      (endsClosed_of_scan hBefore).mpr hClosed
    exact Bool.false_ne_true (hOpen.symm.trans hBetween)

end Line

/- Instructions up to a label, then label to label. -/
def Line.blocks : List Line → List (List Instruction)
| [] => [[]]
| .label _ :: rest => [] :: blocks rest
| .instruction i :: rest =>
    (blocks rest).modifyHead (i :: ·)

/- The last one is a terminator, and no other is. -/
def Instruction.IsBlock (block : List Instruction) : Prop :=
  ∃ front last, block = front ++ [last] ∧
    (Line.instruction last).isTerminator = true ∧
    ∀ i ∈ front, (Line.instruction i).isTerminator = false

namespace Instruction.IsBlock

theorem single
    (hLast : (Line.instruction i).isTerminator = true) :
    IsBlock [i] :=
  ⟨[], i, rfl, hLast, by simp⟩

theorem cons
    {block : List Instruction}
    (hFirst : (Line.instruction i).isTerminator = false)
    (hBlock : IsBlock block) :
    IsBlock (i :: block) := by
  rcases hBlock with ⟨front, last, rfl, hLast, hFront⟩
  exact ⟨i :: front, last, rfl, hLast,
    List.forall_mem_cons.mpr ⟨hFirst, hFront⟩⟩

end Instruction.IsBlock

open Instruction (IsBlock)

/-
  Lines that end in a terminator are made of blocks.  Behind
  a terminator nothing is left of the block that it ends.
-/
theorem Line.isBlock_of_scan
    {lines : List Line}
    {between : Bool}
    (hScan : scan between lines = some true) :
    ∃ first others, blocks lines = first :: others ∧
      (between = true → first = []) ∧
      (between = false → IsBlock first) ∧
      ∀ block ∈ others, IsBlock block := by
  induction lines generalizing between with
  | nil =>
      cases hScan
      exact ⟨[], [], rfl, fun _ => rfl, by simp, by simp⟩
  | cons line rest ih =>
      cases line with
      | label l =>
          rcases scan_label_eq_some.mp hScan with
            ⟨rfl, hRest⟩
          rcases ih hRest with
            ⟨first, others, hEq, -, hFirst, hOthers⟩
          refine ⟨[], blocks rest, rfl, fun _ => rfl,
            by simp, ?_⟩
          rw [hEq]
          exact List.forall_mem_cons.mpr
            ⟨hFirst rfl, hOthers⟩
      | instruction i =>
          rcases scan_instruction_eq_some.mp hScan with
            ⟨rfl, hRest⟩
          rcases ih hRest with
            ⟨first, others, hEq, hEnd, hOpen, hOthers⟩
          refine ⟨i :: first, others,
            by rw [blocks, hEq]; rfl, by simp,
            fun _ => ?_, hOthers⟩
          cases hLast :
            (Line.instruction i).isTerminator with
          | true =>
              rw [hEnd hLast]
              exact .single hLast
          | false => exact .cons hLast (hOpen hLast)

end

open Instruction (Marked)

------------------------------------------------------------
-- Operations
------------------------------------------------------------

/- What can be asked for while code is written. -/
inductive Operation where
| label
| temporary
| place (l : Label)
| append (text : String)
| jump (l : Label)
| branch (condition : Value) (onTrue onFalse : Option Label)
| convertValue (value : Value) (target : Ty) (line : Nat)
| address (target : Place)
| reduce (e : Expr)
| convert (e : Expr) (target : Ty)
| branches (e : Expr) (onTrue onFalse : Option Label)
| statement (st : Stmt) (before after : Label)

namespace Operation

/- Carry out an operation, whose answer is not looked at. -/
def build : Operation → Build Unit
| .label => do
    let _ ← Build.label
| .temporary => do
    let _ ← Build.number
| .place l => Build.place l
| .append text => Build.append (.verbatim text)
| .jump l => Build.jump l
| .branch condition onTrue onFalse =>
    Build.branch condition onTrue onFalse
| .convertValue value target line => do
    let _ ← Build.convertValue value target line
| .address target => do
    let _ ← target.address
| .reduce e => do
    let _ ← e.reduce
| .convert e target => do
    let _ ← e.convert target
| .branches e onTrue onFalse => e.branches onTrue onFalse
| .statement st before after => st.lower before after

/-
  Carry out operations in order.  After a fault the next one
  goes on with the state that was left.
-/
def run
    (operations : List Operation)
    (b : Builder) : Builder :=
  operations.foldl
    (fun b operation => operation.build.after b) b

theorem build_steps
    (operation : Operation) :
    Build.Steps Marked operation.build := by
  have hCarries :
      Builder.Carries Marked (Builder.Steps Marked) :=
    Builder.Steps.carries
  have hExpr : ∀ e : Expr,
      e.lower.Carried (Builder.Steps Marked) :=
    fun e => e.raw_eq.1 ▸ hCarries.lowerExpr e.raw
  cases operation with
  | label => exact Build.Steps.label.bind fun _ => .pure ()
  | temporary =>
      exact Build.Steps.number.bind fun _ => .pure ()
  | place l => exact .place l
  | append text => exact .append trivial
  | jump l => exact .jump l
  | branch condition onTrue onFalse =>
      exact .branch fun _ _ => trivial
  | convertValue value target line =>
      exact Build.Steps.bind
        (hCarries.convertValue value target line)
        fun _ => .pure ()
  | address target =>
      exact Build.Steps.bind
        (target.raw_eq.1 ▸ hCarries.address target.raw)
        fun _ => .pure ()
  | reduce e =>
      exact Build.Steps.bind (hExpr e).reduce fun _ =>
        .pure ()
  | convert e target =>
      exact Build.Steps.bind ((hExpr e).convert target)
        fun _ => .pure ()
  | branches e onTrue onFalse =>
      exact (hExpr e).branches onTrue onFalse
  | statement st before after =>
      show Build.Steps Marked (st.lower before after)
      exact st.raw_eq.1 ▸
        hCarries.lowerStmt st.raw before after

theorem run_steps
    (operations : List Operation)
    (b : Builder) :
    b.Steps Marked (run operations b) := by
  induction operations generalizing b with
  | nil => exact .refl
  | cons operation rest ih =>
      exact (operation.build_steps b).trans (ih _)

end Operation

namespace FunctionDef

variable {b b' : Builder} {f : FunctionDef} {d : Definition}

/- The end of a function closes its last block. -/
theorem between_of_lowerEnd
    {t : Ty}
    (hOk : lowerEnd t b = .ok () b') :
    b'.between = true := by
  rw [lowerEnd, Step.get_bind] at hOk
  split at hOk
  · rename_i hBetween
    rcases Step.pure_eq_ok.mp hOk with ⟨-, rfl⟩
    exact hBetween
  · split at hOk
    · cases hOk
      rfl
    · cases hOk
      rfl

theorem between_of_lowerBody
    (hOk : f.lowerBody b = .ok d b') :
    b'.between = true := by
  rcases Step.bind_eq_ok.mp hOk with ⟨_, _, -, hRest⟩
  rcases Step.bind_eq_ok.mp hRest with ⟨_, _, -, hRest⟩
  have hRest := placeIf_eq_ok.mp hRest
  rcases Step.bind_eq_ok.mp hRest with ⟨_, _, -, hRest⟩
  have hRest := placeIf_eq_ok.mp hRest
  rcases Step.bind_eq_ok.mp hRest with ⟨_, _, hEnd, hRest⟩
  cases hRest
  exact between_of_lowerEnd hEnd

/- The lines alternate, and end in a terminator. -/
theorem scan_of_lower
    (hOk : f.lower b = .ok d b') :
    Line.scan false d.lines = some true := by
  rcases lower_eq_ok hOk with ⟨hWritten, rfl⟩
  have hReached := f.lower_respects .steps b.cleared
  rw [Build.after, hWritten] at hReached
  have hStart : b.cleared.Scanned := rfl
  have hScanned := hReached.scanned hStart
  rcases Step.bind_eq_ok.mp hWritten with ⟨_, _, -, hBody⟩
  rw [Builder.Scanned, between_of_lowerBody hBody]
    at hScanned
  exact hScanned

end FunctionDef

/- The closing bracket stands behind the last line. -/
theorem Definition.text_of_lines
    {d : Definition}
    {front : List Line}
    {last : Line}
    (hLines : d.lines = front ++ [last]) :
    d.text =
      d.header ++ "\n" ++
        String.join (front.map Line.text) ++
        last.text ++ "\x7d\n\n" := by
  rw [Definition.text, hLines]
  simp [String.append_assoc]

namespace Program

/-
  Whatever operations are carried out, a label stands only
  right behind a terminator, an instruction never does, and
  the builder knows whether the last line was one.  In a
  compiled program the closing bracket of a function stands
  right behind a terminator too, and each block, the one
  before the first label included, ends in its one
  terminator.
-/
theorem blocks_terminated :
    (∀ operations : List Operation,
      Line.Alternates
        (Operation.run operations .empty).lines.toList
        (Operation.run operations .empty).between) ∧
    ∀ source output, compile source = .ok output →
      ∃ p listing,
        Program.parse source = .ok p ∧
          p.lower = .ok listing ∧
        output = listing.text ∧
        ∀ d ∈ listing.definitions,
          Line.Alternates d.lines true ∧
          (∃ front last,
            d.lines = front ++ [last] ∧
              last.isTerminator = true ∧
              d.text =
                d.header ++ "\n" ++
                  String.join (front.map Line.text) ++
                  last.text ++ "\x7d\n\n") ∧
          ∀ block ∈ Line.blocks d.lines,
            Instruction.IsBlock block := by
  refine ⟨?_, ?_⟩
  · intro operations
    have hStart : Builder.empty.Scanned := rfl
    exact Line.alternates_of_scan
      ((Operation.run_steps operations .empty).scanned
        hStart)
  · intro source output hCompile
    rcases compile_eq_ok hCompile with
      ⟨p, listing, hParse, hLower, hText⟩
    rcases lower_eq_ok hLower with ⟨b, hAll⟩
    refine ⟨p, listing, hParse, hLower, hText, ?_⟩
    intro d hMem
    rcases FunctionDef.lower_of_mem hAll rfl d hMem with
      ⟨f, -, b₁, b₂, -, hFunction⟩
    have hScan := FunctionDef.scan_of_lower hFunction
    have hAlternates := Line.alternates_of_scan hScan
    refine ⟨hAlternates, ?_, ?_⟩
    · rcases hAlternates.noted.mp rfl with
        ⟨last, hLast, hEnd⟩
      rcases List.getLast?_eq_some_iff.mp hLast with
        ⟨front, hLines⟩
      exact ⟨front, last, hLines, hEnd,
        Definition.text_of_lines hLines⟩
    · rcases Line.isBlock_of_scan hScan with
        ⟨first, others, hBlocks, -, hFirst, hOthers⟩
      rw [hBlocks]
      exact List.forall_mem_cons.mpr ⟨hFirst rfl, hOthers⟩

theorem sample_terminated :
    ∃ output,
      compile sample = .ok output ∧
      ∃ p listing,
        Program.parse sample = .ok p ∧
          p.lower = .ok listing ∧
        output = listing.text ∧
        listing.definitions.length = 2 ∧
        ∀ d ∈ listing.definitions,
          Line.Alternates d.lines true ∧
          (∃ front last,
            d.lines = front ++ [last] ∧
              last.isTerminator = true ∧
              d.text =
                d.header ++ "\n" ++
                  String.join (front.map Line.text) ++
                  last.text ++ "\x7d\n\n") ∧
          ∀ block ∈ Line.blocks d.lines,
            Instruction.IsBlock block := by
  rcases sample_lowers with
    ⟨p, listing, hParse, hLower, -, hTwo⟩
  have hCompile := compile_of_lower hParse hLower
  rcases blocks_terminated.2 sample _ hCompile with
    ⟨p', listing', hParse', hLower', hText, hBlocks⟩
  cases hParse.symm.trans hParse'
  cases hLower.symm.trans hLower'
  exact ⟨_, hCompile, p, listing, hParse, hLower, hText,
    hTwo, hBlocks⟩

end Program

end Bracketry
