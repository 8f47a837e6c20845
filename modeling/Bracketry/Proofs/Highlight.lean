import Bracketry.Highlight

/-
  This file shows that colouring a line keeps its
  characters.

  Source lines are also coloured by position: a cursor goes
  through the line, and a string is skipped with two
  characters at a backslash.  That may fail, at a position
  that the line does not have or when its turns are used up.
  It never does, and comes to the same spans.

  Main declarations:
    * `Highlight.Scan` and `Highlight.scan?`
    * `Highlight.Scan.run?_eq`
    * `Highlight.highlighting_keeps_text`
-/

namespace Bracketry

/- The characters of a row of spans. -/
def Span.contents (spans : List Span) : List Char :=
  spans.flatMap text

namespace Span

@[simp] theorem contents_nil :
    contents [] = [] := rfl

@[simp] theorem contents_cons
    (s : Span)
    (rest : List Span) :
    contents (s :: rest) = s.text ++ contents rest := rfl

@[simp] theorem contents_append
    (first second : List Span) :
    contents (first ++ second) = contents first ++
      contents second :=
  List.flatMap_append

end Span

namespace Highlight

variable {c : Char}
variable (afterBracket : Bool)

@[simp] theorem contents_piece
    (style : Style)
    (read : List Char) :
    Span.contents (piece style read) = read.reverse := by
  cases read with
  | nil => rfl
  | cons c rest => simp [piece]

/- What was read of the word or the string, backwards. -/
def Mode.pending : Mode → List Char
| .word read => read
| .quoted read _ => read

/- No character is lost, whatever is being read. -/
theorem sourceFrom_contents
    (mode : Mode)
    (row : List Char) :
    Span.contents (sourceFrom afterBracket mode row) =
      mode.pending.reverse ++ row := by
  induction row generalizing afterBracket mode with
  | nil => cases mode <;> simp [sourceFrom, Mode.pending]
  | cons c rest ih =>
      cases mode with
      | word read =>
          unfold sourceFrom
          repeat' split
          all_goals simp [ih, Mode.pending]
      | quoted read escaped =>
          unfold sourceFrom
          repeat' split
          all_goals simp [ih, Mode.pending]

theorem codeFrom_contents
    (read row : List Char) :
    Span.contents (codeFrom read row) = read.reverse ++
      row := by
  induction row generalizing read with
  | nil => simp [codeFrom]
  | cons c rest ih =>
      unfold codeFrom
      split <;> simp [ih]

theorem code_contents
    (row : List Char) :
    Span.contents (code row) = row := by
  unfold code
  split
  · simp
  · simp [codeFrom_contents]

------------------------------------------------------------
-- Colouring by Position
------------------------------------------------------------

/- The part of a line between two positions. -/
def slice?
    (row : List Char)
    (first last : Nat) : Option (List Char) :=
  if first ≤ last ∧ last ≤ row.length then
    some ((row.drop first).take (last - first))
  else
    none

/-
  The position of the quote that closes a string, or one
  that lies behind the line.
-/
def closing?
    (row : List Char) :
    Nat → Nat → Option Nat
| 0, _ => none
| turns + 1, position =>
    if position < row.length then do
      let c ← row[position]?
      if c = '"' then
        return position
      else
        closing? row turns
          (position + if c = '\\' then 2 else 1)
    else
      return position

/- Whether a comment opens at a position. -/
def commentAt?
    (row : List Char)
    (position : Nat)
    (c : Char) : Option Bool :=
  if c = '/' ∧ position + 1 < row.length then do
    let next ← row[position + 1]?
    return next = '/' || next = '*'
  else
    return false

/-
  How far a line is coloured: the position of the cursor,
  the word in front of it, and the spans of all that came
  before.
-/
structure Scan where
  position : Nat
  word : List Char
  afterBracket : Bool
  spans : List Span

namespace Scan

/- The spans when the word is finished. -/
def finish
    (s : Scan)
    (style : Style) : List Span :=
  if s.word = [] then s.spans else
    s.spans ++ [⟨s.word, style⟩]

/- Colour the line from the cursor on, in some turns. -/
def run?
    (row : List Char) :
    Nat → Scan → Option (List Span)
| 0, _ => none
| turns + 1, s =>
    if s.position < row.length then do
      let c ← row[s.position]?
      if ← commentAt? row s.position c then
        let comment ← slice? row s.position row.length
        return s.finish .plain ++
          [⟨comment, .colour Palette.muted⟩]
      else if c = '"' then
        let close ← closing? row (row.length + 1)
          (s.position + 1)
        let last := min (close + 1) row.length
        let string ← slice? row s.position last
        run? row turns
          { s with
            position := last
            word := []
            spans :=
              s.finish .plain ++
                [⟨string, .colour Palette.literal⟩] }
      else if isWordChar c then
        run? row turns
          { s with
            position := s.position + 1,
            word := s.word ++ [c] }
      else
        run? row turns
          { position := s.position + 1
            word := []
            afterBracket :=
              bracketAfter s.afterBracket s.word c
            spans :=
              s.finish (wordStyle s.afterBracket s.word) ++
                [⟨[c], markStyle c⟩] }
    else
      return s.finish (wordStyle s.afterBracket s.word)

end Scan

/- Colour a line, in a turn for each character. -/
def scan? (row : List Char) : Option (List Span) :=
  Scan.run? row (row.length + 1) ⟨0, [], false, []⟩

variable {row : List Char}

/- At a position of the line there is a character. -/
theorem drop_of_lt
    {position : Nat}
    (hPosition : position < row.length) :
    ∃ c, row[position]? = some c ∧
      row.drop position = c :: row.drop (position + 1) :=
  ⟨row[position], List.getElem?_eq_getElem hPosition,
    List.drop_eq_getElem_cons hPosition⟩

/- A part starts with the character at its start. -/
theorem part_of_drop
    {position last : Nat}
    (hDrop : row.drop position =
      c :: row.drop (position + 1))
    (hLast : position < last) :
    (row.drop position).take (last - position) =
      c :: (row.drop (position + 1)).take
        (last - (position + 1)) := by
  have hMore : last - position =
    last - (position + 1) + 1 := by omega
  rw [hDrop, hMore, List.take_succ_cons]

theorem closing?_of_lt
    {turns position : Nat}
    (hPosition : position < row.length)
    (hChar : row[position]? = some c) :
    closing? row (turns + 1) position =
      if c = '"' then some position
      else closing? row turns
        (position + if c = '\\' then 2 else 1) := by
  rw [closing?, if_pos hPosition, hChar]
  rfl

/- Inside of a string, only a quote is not read on. -/
theorem sourceFrom_quoted
    (read rest : List Char)
    (hQuote : c ≠ '"') :
    sourceFrom afterBracket (.quoted read false)
      (c :: rest) =
        sourceFrom afterBracket
          (.quoted (c :: read) (c == '\\')) rest := by
  rw [sourceFrom, if_neg fun hBoth => hQuote hBoth.1,
    Bool.not_false, Bool.and_true]

/- Behind a backslash, every character is read on. -/
theorem sourceFrom_escaped
    (read rest : List Char)
    (c : Char) :
    sourceFrom afterBracket (.quoted read true)
      (c :: rest) =
        sourceFrom afterBracket (.quoted (c :: read) false)
          rest := by
  rw [sourceFrom, if_neg fun hBoth => hBoth.2 rfl,
    Bool.not_true, Bool.and_false]

/-
  The rest of a string is skipped up to behind its closing
  quote, or to the end of the line.
-/
theorem closing?_of_quoted
    (row : List Char)
    (afterBracket : Bool)
    (turns position : Nat)
    (hTurns : row.length - position < turns) :
    ∃ close, closing? row turns position = some close ∧
      position ≤ close ∧
      ∀ read, sourceFrom afterBracket (.quoted read false)
          (row.drop position) =
        piece (.colour Palette.literal)
            (((row.drop position).take
              (min (close + 1) row.length -
                position)).reverse ++ read) ++
          sourceFrom afterBracket (.word [])
            (row.drop (min (close + 1) row.length)) := by
  induction turns generalizing position with
  | zero => omega
  | succ turns ih =>
      by_cases hPosition : position < row.length
      · rcases drop_of_lt hPosition with ⟨c, hChar, hDrop⟩
        rw [closing?_of_lt hPosition hChar]
        by_cases hQuote : c = '"'
        · refine ⟨position, if_pos hQuote, Nat.le_refl _,
            fun read => ?_⟩
          rw [Nat.min_eq_left hPosition, part_of_drop hDrop
            (by omega), hDrop, sourceFrom,
              if_pos ⟨hQuote, by simp⟩]
          simp
        · rw [if_neg hQuote]
          by_cases hEscape : c = '\\'
          · rw [if_pos hEscape]
            rcases ih (position + 2) (by omega) with
              ⟨close, hClose, hLe, hRest⟩
            refine ⟨close, hClose, by omega, fun read => ?_⟩
            rw [part_of_drop hDrop (by omega), hDrop,
              sourceFrom_quoted _ _ _ hQuote,
                beq_iff_eq.mpr hEscape]
            by_cases hMore : position + 1 < row.length
            · rcases drop_of_lt hMore with ⟨d, -, hDrop₂⟩
              rw [part_of_drop hDrop₂ (by omega), hDrop₂,
                sourceFrom_escaped, hRest]
              simp
            · -- the backslash is the last character of the
              -- line
              have hNil : row.drop (position + 1) = [] :=
                List.drop_eq_nil_of_le (by omega)
              have hLast : min (close + 1) row.length =
                  row.length := by
                omega
              rw [hNil, hLast, List.drop_length]
              simp [sourceFrom, piece]
          · rw [if_neg hEscape]
            rcases ih (position + 1) (by omega) with
              ⟨close, hClose, hLe, hRest⟩
            refine ⟨close, hClose, by omega, fun read => ?_⟩
            rw [part_of_drop hDrop (by omega), hDrop,
              sourceFrom_quoted _ _ _ hQuote,
                beq_eq_false_iff_ne.mpr hEscape,
              hRest]
            simp
      · refine ⟨position, ?_, Nat.le_refl _, fun read => ?_⟩
        · rw [closing?, if_neg hPosition]
          rfl
        · rw [Nat.min_eq_right (by omega),
            List.drop_eq_nil_of_le (by omega)]
          simp [sourceFrom, piece]

theorem slice?_of_le
    {first last : Nat}
    (hFirst : first ≤ last)
    (hLast : last ≤ row.length) :
    slice? row first last =
      some ((row.drop first).take (last - first)) :=
  if_pos ⟨hFirst, hLast⟩

theorem commentAt?_eq
    {position : Nat}
    (hDrop : row.drop position =
      c :: row.drop (position + 1)) :
    commentAt? row position c =
      some (opensComment (row.drop position)) := by
  rw [hDrop, commentAt?]
  by_cases hMore : position + 1 < row.length
  · rcases drop_of_lt hMore with ⟨d, hNext, hDrop₂⟩
    rw [hNext, hDrop₂]
    by_cases hSlash : c = '/'
    · rw [if_pos ⟨hSlash, hMore⟩, hSlash]
      by_cases hLine : d = '/'
      · rw [hLine]
        rfl
      · by_cases hBlock : d = '*'
        · rw [hBlock]
          rfl
        · simp [opensComment, hLine, hBlock]
    · rw [if_neg fun hBoth => hSlash hBoth.1]
      simp [opensComment, hSlash]
  · rw [if_neg fun hBoth => hMore hBoth.2,
      List.drop_eq_nil_of_le (Nat.le_of_not_lt hMore)]
    simp [opensComment]

namespace Scan

theorem finish_eq
    (s : Scan)
    (style : Style) :
    s.finish style = s.spans ++
      piece style s.word.reverse := by
  rw [finish]
  split
  · rename_i hNil
    simp [hNil, piece]
  · rename_i hSome
    rw [piece, List.reverse_reverse]
    simpa using hSome

/-
  The spans found so far go on with those of the rest of the
  line, behind the word that is being read.
-/
theorem run?_eq
    {turns : Nat}
    {s : Scan}
    (hTurns : row.length - s.position < turns) :
    run? row turns s =
      some (s.spans ++
        sourceFrom s.afterBracket (.word s.word.reverse)
          (row.drop s.position)) := by
  induction turns generalizing s with
  | zero => omega
  | succ turns ih =>
      by_cases hPosition : s.position < row.length
      · rcases drop_of_lt hPosition with ⟨c, hChar, hDrop⟩
        rw [run?, if_pos hPosition, hChar]
        simp only [Option.bind_eq_bind, Option.bind_some,
          commentAt?_eq hDrop]
        rw [hDrop, sourceFrom]
        split
        · rw [slice?_of_le (by omega) (Nat.le_refl _),
            finish_eq, hDrop, List.take_of_length_le
              (by simp; omega)]
          simp
        · split
          · -- the skip may go past the end and is cut there
            rcases closing?_of_quoted row s.afterBracket
                (row.length + 1) (s.position + 1)
                  (by omega) with
              ⟨close, hClose, hLe, hRest⟩
            rw [hClose]
            simp only [Option.bind_some]
            rw [slice?_of_le (by omega)
              (Nat.min_le_right _ _),
              Option.bind_some, ih (by dsimp only; omega),
                hRest,
              part_of_drop hDrop (by omega), finish_eq]
            simp [piece]
          · split
            · rw [ih (by dsimp only; omega)]
              simp
            · rw [ih (by dsimp only; omega), finish_eq]
              simp [bracketAfter]
      · rw [run?, if_neg hPosition, finish_eq,
          List.drop_eq_nil_of_le
            (Nat.le_of_not_lt hPosition), sourceFrom,
          List.reverse_reverse]
        rfl

end Scan

theorem scan?_eq
    (row : List Char) :
    scan? row = some (source row) :=
  Scan.run?_eq (Nat.lt_succ_of_le (Nat.sub_le _ _))

/-
  Colouring a source line by position never leaves the line
  and comes to an end, and the spans of a line of source or
  of code have the characters of the line, in order.
-/
theorem highlighting_keeps_text
    (row : List Char) :
    scan? row = some (source row) ∧
      Span.contents (source row) = row ∧
      Span.contents (code row) = row :=
  ⟨scan?_eq row, sourceFrom_contents false (.word []) row,
    code_contents row⟩

end Highlight

end Bracketry
