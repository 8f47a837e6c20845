import Bracketry.Inspector.Frame
import Bracketry.Proofs.Code.Rows
import Bracketry.Proofs.Highlight

/-
  This file tells what is drawn in the panes of the
  inspector, and how far they are scrolled through keys and
  drawings in any order.

  A pane has a row for each visible line of its text.
  Colours keep the characters of a line.  A key moves the
  pane in focus or, from function to function, the code.
  Between drawings a pane may be scrolled behind its text,
  but not past the limit; a drawing takes it back to its
  last page.  At the start the line of a fault is in the
  tenth row of the source, or above it, before the height of
  the screen is known.

  Main declarations:
    * `Inspector.drawn` and `Inspector.drawn_eq`
    * `Inspector.run` and `Inspector.Fits.run`
    * `Inspector.scrolling_in_range`
    * `Inspector.fault_in_view_iff`
-/

namespace Bracketry

variable {line : List Char}

namespace Text

theorem mem_of_mem_trimReturn
    {c : Char}
    (hMem : c ∈ trimReturn line) :
    c ∈ line := by
  unfold trimReturn at hMem
  split at hMem
  · exact List.dropLast_subset line hMem
  · exact hMem

theorem newline_notMem_linesFrom
    (read rest : List Char)
    (hRead : '\n' ∉ read) :
    ∀ line ∈ linesFrom read rest, '\n' ∉ line := by
  induction rest generalizing read with
  | nil =>
      cases read with
      | nil => simp [linesFrom]
      | cons c others =>
          simpa [linesFrom, and_comm] using hRead
  | cons c rest ih =>
      rw [linesFrom]
      split
      · refine List.forall_mem_cons.mpr
          ⟨?_, ih [] List.not_mem_nil⟩
        intro hMem
        exact hRead
          (List.mem_reverse.mp (mem_of_mem_trimReturn hMem))
      · rename_i hOther
        refine ih (c :: read) fun hMem => ?_
        rcases List.mem_cons.mp hMem with hEq | hBefore
        · exact hOther hEq.symm
        · exact hRead hBefore

/- No line of a text goes on behind a newline. -/
theorem newline_notMem_lines
    {text : String}
    (hLine : line ∈ lines text) :
    '\n' ∉ line :=
  newline_notMem_linesFrom [] text.toList List.not_mem_nil
    line hLine

end Text

namespace Inspector

/- The lines in a pane; a fault has none. -/
def lines?
    (i : Inspector) :
    Pane → Option (List (List Char))
| .source => some (Text.lines i.source)
| .code => i.result.toOption.map Text.lines

/- How far a pane is scrolled. -/
def offset
    (i : Inspector) :
    Pane → Nat
| .source => i.sourceScroll
| .code => i.codeScroll

/- The box of a pane on a screen of a given size. -/
def box
    (i : Inspector)
    (width height : Nat) :
    Pane → Box
| .source => i.sourceBox (height - 1)
| .code => i.codeBox (width / 2) (height - 1)

/- The characters of the rows of a pane. -/
def drawn
    (i : Inspector)
    (width height : Nat)
    (pane : Pane) : List (List Char) :=
  (i.box width height pane).content.map (·.map Cell.char)

end Inspector

/- A line as it is shown; source lines have numbers. -/
def Pane.row :
    Pane → Nat → List Char → List Char
| .source, number, line =>
    (Text.alignRight 4 (toString number)).toList ++
      ' ' :: line
| .code, _, line => line

theorem Span.row_chars
    (spans : List Span) :
    (Span.row spans).map Cell.char =
      (contents spans).filter (· ≠ '\n') := by
  induction spans with
  | nil => rfl
  | cons s rest ih =>
      rw [contents_cons, List.filter_append, ← ih]
      simp [row, cells, Function.comp_def]

namespace Inspector

variable {i : Inspector} {pane : Pane}
    {lines : List (List Char)}
variable (width height : Nat)

theorem newline_notMem_label
    (number : Nat) :
    '\n' ∉
      (Text.alignRight 4 (toString number)).toList := by
  intro hMem
  rw [Text.alignRight, String.toList_append,
    String.toList_ofList] at hMem
  rcases List.mem_append.mp hMem with hBlank | hDigit
  · cases List.eq_of_mem_replicate hBlank
  · exact Text.plain_nat number _ hDigit List.mem_cons_self

theorem numberedLine_contents
    (faulty : Bool)
    (number : Nat)
    (line : List Char) :
    Span.contents (numberedLine faulty number line) =
      Pane.source.row number line := by
  have hText : Span.contents (Highlight.source line) =
    line :=
    Highlight.sourceFrom_contents false (.word []) line
  have hStyled : ∀ spans : List Span,
      Span.contents (spans.map fun s =>
        { s with style := faultStyle }) =
        Span.contents spans := fun spans =>
          List.flatMap_map ..
  unfold numberedLine
  split <;> simp [Pane.row, hText, hStyled]

theorem numberedLine_row
    (faulty : Bool)
    (number : Nat)
    (hLine : '\n' ∉ line) :
    (Span.row (numberedLine faulty number line)).map
      Cell.char = Pane.source.row number line := by
  rw [Span.row_chars, numberedLine_contents]
  refine List.filter_eq_self.mpr fun c hMem =>
    decide_eq_true ?_
  rintro rfl
  rcases List.mem_append.mp hMem with hLabel | hRest
  · exact newline_notMem_label number hLabel
  · rcases List.mem_cons.mp hRest with hBlank | hInLine
    · cases hBlank
    · exact hLine hInLine

theorem code_row
    (hLine : '\n' ∉ line) :
    (Span.row (Highlight.code line)).map Cell.char =
      line := by
  rw [Span.row_chars, Highlight.code_contents]
  refine List.filter_eq_self.mpr fun c hMem =>
    decide_eq_true ?_
  rintro rfl
  exact hLine hMem

/- Lines keep the numbers they have in the whole text. -/
theorem window_zipIdx
    {Line : Type}
    (scroll visible first : Nat)
    (lines : List Line) :
    window scroll visible (lines.zipIdx first) =
      (window scroll visible lines).zipIdx
        (scroll + first) := by
  unfold window
  apply List.ext_getElem?
  intro k
  simp only [List.getElem?_take, List.getElem?_drop,
    List.getElem?_zipIdx]
  split
  · rw [Nat.add_comm scroll first, Nat.add_assoc]
  · rfl

/-
  The rows of a pane are the lines of its text from the
  offset on, as many as are visible.
-/
theorem drawn_eq
    (hLines : i.lines? pane = some lines) :
    i.drawn width height pane =
      (((lines.drop (i.offset pane)).take
        (visibleLines (height - 1))).zipIdx
          (i.offset pane + 1)).map
          fun numbered =>
            pane.row numbered.2 numbered.1 := by
  change _ =
    ((window (i.offset pane) (visibleLines (height - 1))
    lines).zipIdx (i.offset pane + 1)).map _
  have hMem :
      ∀ line ∈
        window (i.offset pane) (visibleLines (height - 1))
      lines, line ∈ lines := fun line hIn =>
    List.mem_of_mem_drop (List.mem_of_mem_take hIn)
  cases pane with
  | source =>
      cases hLines
      rw [← window_zipIdx]
      unfold drawn box sourceBox sourceWindow
      rw [List.map_map]
      refine List.map_congr_left fun numbered hIn => ?_
      rw [window_zipIdx] at hIn
      have hLine :=
        hMem numbered.1 (List.fst_mem_of_mem_zipIdx hIn)
      exact numberedLine_row _ _
        (Text.newline_notMem_lines hLine)
  | code =>
      cases hResult : i.result with
      | error fault =>
          rw [lines?, hResult] at hLines
          cases hLines
      | ok code =>
          rw [lines?, hResult] at hLines
          cases hLines
          unfold drawn box codeBox
          rw [hResult, List.map_map]
          refine Eq.trans ?_ (List.zipIdx_map_fst _ _).symm
          refine (List.map_congr_left fun line hIn =>
            ?_).trans (List.map_id _)
          exact code_row
            (Text.newline_notMem_lines (hMem line hIn))

/- On the last page the last line is shown. -/
theorem getLast?_drawn
    (hLines : i.lines? pane = some lines)
    (hOffset : i.offset pane =
      lines.length - visibleLines (height - 1)) :
    (i.drawn width height pane).getLast? =
      lines.getLast?.map (pane.row lines.length) := by
  have hVisible : 1 ≤ visibleLines (height - 1) :=
    Nat.le_max_left _ _
  rw [drawn_eq width height hLines, List.getLast?_map,
    List.getLast?_zipIdx,
    Option.map_map, List.take_of_length_le (by simp; omega),
    List.getLast?_drop, hOffset]
  split
  · have hNil : lines = [] :=
      List.length_eq_zero_iff.mp (by omega)
    rw [hNil]
    rfl
  · refine Option.map_congr fun line _ => ?_
    have hNumber :
        lines.length - visibleLines (height - 1) + 1 +
            (lines.drop
              (lines.length -
                visibleLines (height - 1))).length -
              1 =
          lines.length := by
      rw [List.length_drop]
      omega
    exact congrArg (pane.row · line) hNumber

theorem head?_drawn
    (hLines : i.lines? pane = some lines)
    (hOffset : i.offset pane = 0) :
    (i.drawn width height pane).head? =
      lines.head?.map (pane.row 1) := by
  have hVisible : visibleLines (height - 1) ≠ 0 := by
    have hPositive : 1 ≤ visibleLines (height - 1) :=
      Nat.le_max_left _ _
    omega
  rw [drawn_eq width height hLines, hOffset, List.head?_map,
    List.head?_zipIdx, List.drop_zero, List.head?_take,
      if_neg hVisible,
    Option.map_map]
  rfl

end Inspector

namespace Inspector

variable {i : Inspector} {pane : Pane}
    {lines : List (List Char)}
variable {line : Nat}
variable (width height : Nat)

------------------------------------------------------------
-- Keys
------------------------------------------------------------

theorem offset_scroll
    (i : Inspector)
    (move : Nat → Nat)
    (pane : Pane) :
    (i.scroll move).offset pane =
      if i.focus = pane then move (i.offset pane) else
        i.offset pane := by
  unfold scroll
  cases hFocus : i.focus <;> cases pane <;> simp [offset]

theorem lines?_scroll
    (i : Inspector)
    (move : Nat → Nat) :
    (i.scroll move).lines? = i.lines? := by
  unfold scroll
  cases i.focus <;> rfl

theorem lt_of_mem_functionLines
    {code : String}
    (hMem : line ∈ functionLines code) :
    line < (Text.lines code).length := by
  rcases List.mem_map.mp hMem with
    ⟨⟨text, _⟩, hNumbered, rfl⟩
  have hAt := List.mem_zipIdx_iff_getElem?.mp
    (List.mem_filter.mp hNumbered).1
  exact (List.getElem?_eq_some_iff.mp hAt).1

theorem mem_of_target?
    {direction : Direction}
    {current line : Nat}
    {starts : List Nat}
    (hTarget : direction.target? current starts =
      some line) :
    line ∈ starts := by
  cases direction with
  | next => exact List.mem_of_find?_eq_some hTarget
  | previous =>
      exact List.mem_reverse.mp
        (List.mem_of_find?_eq_some hTarget)

/- A jump leaves the source and stays in the code. -/
theorem jump_cases
    (i : Inspector)
    (direction : Direction) :
    (i.jump direction).lines? = i.lines? ∧
      (i.jump direction).offset .source = i.offset .source ∧
      ((i.jump direction).offset .code = i.offset .code ∨
        ∃ lines, i.lines? .code = some lines ∧
          (i.jump direction).offset .code <
            lines.length) := by
  unfold jump
  split
  · exact ⟨rfl, rfl, .inl rfl⟩
  · rename_i code hResult
    dsimp only
    split
    · rename_i line hTarget
      refine ⟨rfl, rfl, .inr ⟨Text.lines code, ?_, ?_⟩⟩
      · rw [lines?, hResult]
        rfl
      · exact lt_of_mem_functionLines
          (mem_of_target? hTarget)
    · exact ⟨rfl, rfl, .inl rfl⟩

/-
  A key scrolls the pane in focus, or goes to a function, or
  changes only the focus and whether the user is done.
-/
theorem press_cases
    (i : Inspector)
    (key : Key) :
    (∃ move : Nat → Nat, i.press key = i.scroll move ∧
        ∀ line ≤ scrollLimit, move line ≤ scrollLimit) ∨
      (∃ direction, i.press key = i.jump direction ∧
        (key = .char 'n' ∨ key = .char 'p')) ∨
      ∃ focus done, i.press key =
        { i with focus := focus, done := done } := by
  unfold press
  split
  · exact .inr (.inr ⟨_, _, rfl⟩)
  · exact .inr (.inr ⟨_, _, rfl⟩)
  · exact .inr (.inr ⟨_, _, rfl⟩)
  · exact .inr (.inr ⟨_, _, rfl⟩)
  · exact .inr (.inr ⟨_, _, rfl⟩)
  · exact .inl
      ⟨_, rfl, fun _ hLine =>
        Nat.le_trans (Nat.sub_le _ _) hLine⟩
  · exact .inl ⟨_, rfl, fun _ _ => Nat.min_le_left _ _⟩
  · exact .inl
      ⟨_, rfl, fun _ hLine =>
        Nat.le_trans (Nat.sub_le _ _) hLine⟩
  · exact .inl ⟨_, rfl, fun _ _ => Nat.min_le_left _ _⟩
  · exact .inl ⟨_, rfl, fun _ _ => Nat.zero_le _⟩
  · exact .inl ⟨_, rfl, fun _ _ => Nat.le_refl _⟩
  · exact .inr (.inl ⟨_, rfl, .inl rfl⟩)
  · exact .inr (.inl ⟨_, rfl, .inr rfl⟩)
  · exact .inr (.inr ⟨_, _, rfl⟩)

theorem lines?_press
    (i : Inspector)
    (key : Key) :
    (i.press key).lines? = i.lines? := by
  rcases press_cases i key with
    ⟨move, hPress, -⟩ | ⟨direction, hPress, -⟩ | ⟨focus,
      done, hPress⟩
  · rw [hPress, lines?_scroll]
  · rw [hPress, (jump_cases i direction).1]
  · rw [hPress]
    rfl

/- A pane that is not in focus is moved by jumps only. -/
theorem offset_press
    {key : Key}
    (hFocus : i.focus ≠ pane)
    (hKey : pane = .code → key ≠ .char 'n' ∧
      key ≠ .char 'p') :
    (i.press key).offset pane = i.offset pane := by
  rcases press_cases i key with
    ⟨move, hPress, -⟩ | ⟨direction, hPress, hJump⟩ | ⟨focus,
      done, hPress⟩
  · rw [hPress, offset_scroll, if_neg hFocus]
  · cases pane with
    | source =>
        rw [hPress]
        exact (jump_cases i direction).2.1
    | code =>
        rcases hKey rfl with ⟨hNext, hPrevious⟩
        exact (hJump.elim hNext hPrevious).elim
  · rw [hPress]
    cases pane <;> rfl

theorem lines?_draw
    (i : Inspector)
    (width height : Nat) :
    (i.draw width height).1.lines? = i.lines? := by
  funext pane
  unfold draw settle
  cases hResult : i.result <;> cases pane <;>
    simp [lines?, hResult]

/- Drawing takes a pane back to its last page. -/
theorem offset_draw
    (hLines : i.lines? pane = some lines) :
    (i.draw width height).1.offset pane =
      min (i.offset pane)
        (lines.length - visibleLines (height - 1)) := by
  unfold draw settle
  cases pane with
  | source =>
      cases hLines
      cases i.result <;> rfl
  | code =>
      cases hResult : i.result with
      | ok code =>
          rw [lines?, hResult] at hLines
          cases hLines
          rfl
      | error fault =>
          rw [lines?, hResult] at hLines
          cases hLines

/- A fault is not scrolled. -/
theorem offset_draw_of_none
    (hNone : i.lines? pane = none) :
    (i.draw width height).1.offset pane =
      i.offset pane := by
  unfold draw settle
  cases pane with
  | source => cases hNone
  | code =>
      cases hResult : i.result with
      | ok code =>
          rw [lines?, hResult] at hNone
          cases hNone
      | error fault => rfl

/- What may happen: a key, or a drawing of some size. -/
inductive Event where
| key (key : Key)
| draw (width height : Nat)
deriving DecidableEq, Repr

/- The inspector after something happened. -/
def react
    (i : Inspector) :
    Event → Inspector
| .key key => i.press key
| .draw width height => (i.draw width height).1

/- The inspector after several things happened. -/
def run
    (i : Inspector)
    (events : List Event) : Inspector :=
  events.foldl react i

theorem lines?_run
    (i : Inspector)
    (events : List Event) :
    (i.run events).lines? = i.lines? := by
  induction events generalizing i with
  | nil => rfl
  | cons event rest ih =>
      refine (ih (i.react event)).trans ?_
      cases event with
      | key key => exact lines?_press i key
      | draw width height =>
          exact lines?_draw i width height

/- Offsets and line numbers keep to the limit. -/
structure Fits (i : Inspector) : Prop where
  offsets : ∀ pane, i.offset pane ≤ scrollLimit
  lines : ∀ pane lines, i.lines? pane = some lines →
    lines.length ≤ scrollLimit

namespace Fits

/- The inspector fits as it starts, if both texts do. -/
theorem ofSource
    {source code : String}
    (file : String)
    (hCompile : compile source = .ok code)
    (hSource : (Text.lines source).length ≤ scrollLimit)
    (hCode : (Text.lines code).length ≤ scrollLimit) :
    (ofSource file source).Fits := by
  have hResult : (Inspector.ofSource file source).result =
    .ok code :=
    hCompile
  refine ⟨fun pane => ?_, fun pane lines hLines => ?_⟩
  · cases pane with
    | source =>
        change firstLine (compile source) ≤ scrollLimit
        rw [hCompile]
        exact Nat.zero_le _
    | code => exact Nat.zero_le _
  · cases pane with
    | source =>
        cases hLines
        exact hSource
    | code =>
        rw [lines?, hResult] at hLines
        cases hLines
        exact hCode

theorem press
    (hFits : i.Fits)
    (key : Key) :
    (i.press key).Fits := by
  refine ⟨fun pane => ?_, lines?_press i key ▸ hFits.lines⟩
  rcases press_cases i key with
    ⟨move, hPress, hMove⟩ | ⟨direction, hPress, -⟩ | ⟨focus,
      done, hPress⟩
  · rw [hPress, offset_scroll]
    split
    · exact hMove _ (hFits.offsets pane)
    · exact hFits.offsets pane
  · rcases jump_cases i direction with ⟨-, hSource, hCode⟩
    rw [hPress]
    cases pane with
    | source => exact hSource ▸ hFits.offsets .source
    | code =>
        rcases hCode with hSame | ⟨lines, hLines, hInside⟩
        · exact hSame ▸ hFits.offsets .code
        · exact Nat.le_trans (Nat.le_of_lt hInside)
            (hFits.lines .code lines hLines)
  · rw [hPress]
    cases pane with
    | source => exact hFits.offsets .source
    | code => exact hFits.offsets .code

theorem draw
    (hFits : i.Fits)
    (width height : Nat) :
    (i.draw width height).1.Fits := by
  refine ⟨fun pane => ?_,
    lines?_draw i width height ▸ hFits.lines⟩
  cases hLines : i.lines? pane with
  | none =>
      rw [offset_draw_of_none width height hLines]
      exact hFits.offsets pane
  | some lines =>
      rw [offset_draw width height hLines]
      exact Nat.le_trans (Nat.min_le_left _ _)
        (hFits.offsets pane)

/- Whatever happens, nothing leaves the range. -/
theorem run
    (hFits : i.Fits)
    (events : List Event) :
    (i.run events).Fits := by
  induction events generalizing i with
  | nil => exact hFits
  | cons event rest ih =>
      cases event with
      | key key => exact ih (hFits.press key)
      | draw width height =>
          exact ih (hFits.draw width height)

end Fits

------------------------------------------------------------
-- First and Last Lines
------------------------------------------------------------

/- The key for the last line shows it when drawn. -/
theorem getLast?_drawn_last
    (hFits : i.Fits)
    (hLines : i.lines? pane = some lines)
    (hFocus : i.focus = pane) :
    (((i.press .last).draw width height).1.drawn width
        height pane).getLast? =
      lines.getLast?.map (pane.row lines.length) := by
  have hPressed : (i.press .last).lines? pane =
      some lines := by
    rw [lines?_press, hLines]
  have hScroll : (i.press .last).offset pane =
      scrollLimit := by
    rw [press, offset_scroll, if_pos hFocus]
  refine getLast?_drawn width height ?_ ?_
  · rw [lines?_draw, hPressed]
  · rw [offset_draw width height hPressed, hScroll]
    exact Nat.min_eq_right
      (Nat.le_trans (Nat.sub_le _ _)
        (hFits.lines pane lines hLines))

/- The key for the first line shows it when drawn. -/
theorem head?_drawn_home
    (hLines : i.lines? pane = some lines)
    (hFocus : i.focus = pane) :
    (((i.press .home).draw width height).1.drawn width
        height pane).head? =
      lines.head?.map (pane.row 1) := by
  have hPressed : (i.press .home).lines? pane =
      some lines := by
    rw [lines?_press, hLines]
  have hScroll : (i.press .home).offset pane = 0 := by
    rw [press, offset_scroll, if_pos hFocus]
  refine head?_drawn width height ?_ ?_
  · rw [lines?_draw, hPressed]
  · rw [offset_draw width height hPressed, hScroll]
    exact Nat.zero_min _

/-
  After any keys and drawings, all offsets are in the range
  of what can be counted.  A key moves only the pane in
  focus, or the code if it goes to a function, and a drawing
  takes each text back to its last page at most.  The rows
  then drawn are the lines from the offset on, as many as
  are visible, in order, each source line with its number.
  So the last line is drawn after the key for it, and the
  first after the key for that.
-/
theorem scrolling_in_range
    {i before after : Inspector}
    {events : List Event}
    {width height : Nat}
    (hFits : i.Fits)
    (hRun : i.run events = before)
    (hDraw : (before.draw width height).1 = after) :
    (before.Fits ∧ after.Fits) ∧
      (∀ pane key, before.focus ≠ pane →
        (pane = .code → key ≠ .char 'n' ∧ key ≠ .char 'p') →
        (before.press key).offset pane =
          before.offset pane) ∧
      (∀ pane, i.lines? pane = none →
        after.offset pane = before.offset pane) ∧
      ∀ pane lines, i.lines? pane = some lines →
        after.offset pane =
            min (before.offset pane)
              (lines.length - visibleLines (height - 1)) ∧
          after.offset pane ≤
            lines.length - visibleLines (height - 1) ∧
          after.drawn width height pane =
            (((lines.drop (after.offset pane)).take
              (visibleLines (height - 1))).zipIdx
                (after.offset pane + 1)).map
                  (fun numbered =>
                    pane.row numbered.2 numbered.1) ∧
          (before.focus = pane →
            (((before.press .last).draw width
                height).1.drawn width height
                  pane).getLast? =
              lines.getLast?.map (pane.row lines.length) ∧
            (((before.press .home).draw width
                height).1.drawn width height pane).head? =
              lines.head?.map (pane.row 1)) := by
  subst hRun hDraw
  have hSame := lines?_run i events
  have hFits₁ := hFits.run events
  refine ⟨⟨hFits₁, hFits₁.draw width height⟩,
    fun pane key => offset_press, fun pane hNone => ?_,
    fun pane lines hLines => ?_⟩
  · rw [← hSame] at hNone
    exact offset_draw_of_none width height hNone
  · rw [← hSame] at hLines
    have hOffset := offset_draw width height hLines
    refine ⟨hOffset, hOffset ▸ Nat.min_le_right _ _,
      drawn_eq width height ?_, fun hFocus => ?_⟩
    · rw [lines?_draw]
      exact hLines
    · exact ⟨getLast?_drawn_last width height hFits₁ hLines
        hFocus, head?_drawn_home width height hLines hFocus⟩

/- Two functions of three lines each. -/
def pair : String :=
  "[int one] \x7b
  return 1;
\x7d
[int two] \x7b
  return 2;
\x7d
"

theorem pair_fits :
    (ofSource "pair" pair).Fits := by
  have hChecked :
      (compile pair).toOption.any
        (fun code => (Text.lines code).length ≤ 8) =
          true := by
    decide +kernel
  rcases Step.except_any_eq_true.mp hChecked with
    ⟨code, hCompile, hCount⟩
  have hSource : (Text.lines pair).length ≤ 8 := by
    decide +kernel
  have hLimit : 8 ≤ scrollLimit := by decide +kernel
  exact .ofSource "pair" hCompile
    (Nat.le_trans hSource hLimit)
    (Nat.le_trans (of_decide_eq_true hCount) hLimit)

theorem pair_in_range :
    (ofSource "pair" pair).Fits ∧
      ∃ after,
        (((ofSource "pair" pair).run
          [.key .last, .key .tab, .key (.char 'n')]).draw 40
            6).1 = after ∧
        after.Fits ∧
        ∀ pane lines,
          (ofSource "pair" pair).lines? pane = some lines →
          after.offset pane ≤ lines.length - 3 ∧
          after.drawn 40 6 pane =
            (((lines.drop (after.offset pane)).take
              3).zipIdx (after.offset pane + 1)).map
                fun numbered =>
                  pane.row numbered.2 numbered.1 := by
  refine ⟨pair_fits, _, rfl, ?_⟩
  rcases @scrolling_in_range _ _ _
      [.key .last, .key .tab, .key (.char 'n')] 40 6
      pair_fits rfl rfl with
    ⟨⟨-, hAfter⟩, -, -, hPanes⟩
  refine ⟨hAfter, fun pane lines hLines => ?_⟩
  rcases hPanes pane lines hLines with
    ⟨-, hOffset, hDrawn, -⟩
  exact ⟨hOffset, hDrawn⟩

/- The numbers of the source lines that are shown. -/
theorem number_mem_sourceWindow
    (i : Inspector)
    (height number : Nat) :
    number ∈ (i.sourceWindow height).map (·.2) ↔
      i.sourceScroll < number ∧
        number ≤ i.sourceScroll + visibleLines height ∧
        number ≤ (Text.lines i.source).length := by
  rw [sourceWindow, window_zipIdx, List.zipIdx_map_snd,
    List.mem_range'_1, window, List.length_take,
      List.length_drop]
  omega

/-
  After the first drawing, in a pane with room for a row,
  the line of a fault is shown exactly when the pane has ten
  rows or as many as the number of the line.
-/
theorem fault_in_view_iff
    {source : String}
    {fault : Fault}
    {height : Nat}
    (hCompile : compile source = .error fault)
    (hLine : 1 ≤ fault.line ∧
      fault.line ≤ (Text.lines source).length)
    (hHeight : 1 ≤ height - 1 - 2)
    (file : String)
    (width : Nat) :
    fault.line ∈
        (((ofSource file source).draw width
          height).1.sourceWindow (height - 1)).map (·.2) ↔
      min fault.line 10 ≤ height - 1 - 2 := by
  have hStart : (ofSource file source).sourceScroll =
      fault.line - 10 := by
    change firstLine (compile source) = _
    rw [hCompile]
    rfl
  have hScroll :
      ((ofSource file source).draw width
        height).1.sourceScroll = min (fault.line - 10)
          ((Text.lines source).length -
            visibleLines (height - 1)) := by
    have hLines : (ofSource file source).lines? .source =
        some (Text.lines source) := rfl
    rw [← hStart]
    exact offset_draw width height hLines
  have hSource :
      Text.lines ((ofSource file source).draw width
        height).1.source = Text.lines source :=
    Option.some.inj
      (congrFun (lines?_draw _ width height) .source)
  have hVisible : visibleLines (height - 1) =
    height - 1 - 2 :=
    Nat.max_eq_right hHeight
  rw [number_mem_sourceWindow, hSource, hScroll, hVisible]
  omega

/- An undeclared name on the second of three lines. -/
def undeclared : String :=
  "[int f] \x7b
  return g;
\x7d
"

theorem compile_undeclared :
    ∃ fault, compile undeclared = .error fault ∧
      fault.line = 2 := by
  have hLine : (ofSource "f" undeclared).faultLine? =
      some 2 := by
    decide +kernel
  rw [faultLine?] at hLine
  split at hLine
  · cases hLine
  · rename_i fault hCompile
    exact ⟨fault, hCompile, Option.some.inj hLine⟩

theorem undeclared_in_view :
    ∃ fault, compile undeclared = .error fault ∧
      1 ≤ fault.line ∧
        fault.line ≤ (Text.lines undeclared).length ∧
      fault.line ∈
        (((ofSource "f" undeclared).draw 80
          24).1.sourceWindow (24 - 1)).map (·.2) := by
  rcases compile_undeclared with ⟨fault, hCompile, hTwo⟩
  have hCount : 2 ≤ (Text.lines undeclared).length := by
    decide +kernel
  have hLine :
      1 ≤ fault.line ∧
        fault.line ≤ (Text.lines undeclared).length := by
    rw [hTwo]
    exact ⟨by decide, hCount⟩
  refine ⟨fault, hCompile, hLine.1, hLine.2, ?_⟩
  refine (fault_in_view_iff hCompile hLine (by decide) "f"
    80).mpr ?_
  rw [hTwo]
  decide

/- A pane with a single row shows the first line instead. -/
theorem undeclared_out_of_view :
    ∃ fault, compile undeclared = .error fault ∧
      1 ≤ fault.line ∧
        fault.line ≤ (Text.lines undeclared).length ∧
      1 ≤ 4 - 1 - 2 ∧
      fault.line ∉
        (((ofSource "f" undeclared).draw 80
          4).1.sourceWindow (4 - 1)).map (·.2) := by
  rcases compile_undeclared with ⟨fault, hCompile, hTwo⟩
  refine ⟨fault, hCompile, ?_⟩
  rw [hTwo]
  refine ⟨by decide, by decide +kernel, by decide,
    by decide +kernel⟩

end Inspector

end Bracketry
