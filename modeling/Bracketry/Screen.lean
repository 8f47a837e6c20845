import Bracketry.Text

/-
  This file defines characters with colours, as they are
  shown on a screen, and how rows of them are put in boxes
  and broken to a width.

  White space at a break is dropped as far as the row before
  it had room; a word that is longer than a row is broken.
-/

namespace Bracketry

/- A colour of text or background. -/
inductive Colour where
| white
| black
| rgb (red green blue : Nat)
deriving DecidableEq, Repr

/- How characters look; a colour may be missing. -/
structure Style where
  foreground : Option Colour
  background : Option Colour
  bold : Bool
deriving DecidableEq, Repr

namespace Style

/- No colour and no weight. -/
def plain : Style :=
  ⟨none, none, false⟩

/- A colour of text. -/
def colour (c : Colour) : Style :=
  ⟨some c, none, false⟩

/- A colour of text, in bold. -/
def strong (c : Colour) : Style :=
  ⟨some c, none, true⟩

end Style

/- Characters that look the same. -/
structure Span where
  text : List Char
  style : Style
deriving DecidableEq, Repr

/- One place of a screen. -/
structure Cell where
  char : Char
  style : Style
deriving DecidableEq, Repr

namespace Span

/- The places of a span; newlines are not shown. -/
def cells (s : Span) : List Cell :=
  (s.text.filter (· ≠ '\n')).map fun c => ⟨c, s.style⟩

/- The places that a row of spans takes up. -/
def row (spans : List Span) : List Cell :=
  spans.flatMap cells

end Span

namespace Cell

/- An empty place. -/
def blank : Cell :=
  ⟨' ', .plain⟩

/- Empty places. -/
def blanks (count : Nat) : List Cell :=
  List.replicate count blank

/- A row of a given width, cut or filled. -/
def fit
    (width : Nat)
    (row : List Cell) : List Cell :=
  row.take width ++ blanks (width - row.length)

/-
  A row of exactly a given width, filled at its left; a row
  that does not fit is cut at its right.
-/
def fitRight
    (width : Nat)
    (row : List Cell) : List Cell :=
  blanks (width - row.length) ++ row.take width

end Cell

namespace Palette

/- Everything without a meaning of its own. -/
def text : Colour :=
  .rgb 205 214 244

/- Line numbers, comments and names of keys. -/
def muted : Colour :=
  .rgb 108 112 134

/- Brackets, braces and colons. -/
def delimiter : Colour :=
  .rgb 137 180 250

/- Words of statements and operations. -/
def keyword : Colour :=
  .rgb 137 180 250

/- Names of types. -/
def typeName : Colour :=
  .rgb 148 226 213

/- Numbers, strings and truth values. -/
def literal : Colour :=
  .rgb 250 179 135

/- Names of functions. -/
def callee : Colour :=
  .rgb 249 226 175

/- Names of variables and temporaries in code. -/
def register : Colour :=
  .rgb 245 194 231

/- Labels of blocks. -/
def label : Colour :=
  .rgb 249 226 175

/- A program without faults. -/
def compiled : Colour :=
  .rgb 166 227 161

/- A fault and the line it is on. -/
def failed : Colour :=
  .rgb 243 139 168

/- The border of the pane that keys act on. -/
def focused : Colour :=
  .rgb 249 226 175

/- The border of the other pane. -/
def idle : Colour :=
  .rgb 108 112 134

end Palette

/- A title, the look of a border, and text. -/
structure Box where
  title : List Char
  border : Style
  content : List (List Cell)

namespace Box

/-
  A row between two border characters.  A box of width one
  has only the left one of them.
-/
def edged
    (b : Box)
    (left right : Char)
    (inner : Nat → List Cell) :
    Nat → List Cell
| 0 => []
| 1 => [⟨left, b.border⟩]
| width + 2 =>
    ⟨left, b.border⟩ :: (inner width ++ [⟨right, b.border⟩])

/- The upper border, with the title in it. -/
def top
    (b : Box)
    (width : Nat) : List Cell :=
  let inner := fun width =>
    let title := b.title.take width
    let line := List.replicate (width - title.length) '─'
    (title ++ line).map fun c => ⟨c, b.border⟩
  b.edged '┌' '┐' inner width

/- A row of text between the borders. -/
def middle
    (b : Box)
    (width : Nat)
    (row : List Cell) : List Cell :=
  b.edged '│' '│' (fun width => Cell.fit width row) width

/- The lower border. -/
def bottom
    (b : Box)
    (width : Nat) : List Cell :=
  let inner := fun width =>
    List.replicate width ⟨'─', b.border⟩
  b.edged '└' '┘' inner width

/- All rows of a box, or its upper border only. -/
def rows
    (b : Box)
    (width : Nat) :
    Nat → List (List Cell)
| 0 => []
| 1 => [b.top width]
| height + 2 =>
    let shown := b.content.take height
    let missing := List.replicate (height - shown.length) []
    b.top width ::
      ((shown ++ missing).map (b.middle width) ++
        [b.bottom width])

end Box

/- Where a row may be broken. -/
def Cell.isGap (c : Cell) : Bool :=
  Text.isWhiteSpace c.char && c.char != '\xa0'

/-
  Rows finished, the row being filled, and the white space
  and the word read behind it, which may still go to the
  next row.
-/
structure Wrapping where
  finished : List (List Cell)
  row : List Cell
  space : List Cell
  word : List Cell
  inWord : Bool

namespace Wrapping

/- Nothing was read. -/
def empty : Wrapping :=
  ⟨[], [], [], [], false⟩

/- The space and the word belong to the row. -/
def settle (w : Wrapping) : Wrapping :=
  { w with
    row := w.row ++ w.space ++ w.word, space := [],
    word := [] }

/- Finish the row; space that it had room for is dropped. -/
def finish
    (limit : Nat)
    (w : Wrapping) : Wrapping :=
  { w with
    finished := w.finished ++ [w.row]
    row := []
    space := w.space.drop (limit - w.row.length) }

/- Add a character to the space or to the word. -/
def add
    (w : Wrapping)
    (c : Cell) : Wrapping :=
  if c.isGap then
    { w with space := w.space ++ [c], inWord := false }
  else
    { w with word := w.word ++ [c], inWord := true }

/- Read one character. -/
def step
    (limit : Nat)
    (w : Wrapping)
    (c : Cell) : Wrapping :=
  let endsWord := w.inWord && c.isGap
  let tooLong :=
    w.row.isEmpty &&
      decide (limit < w.word.length + w.space.length + 1)
  let settled := if endsWord || tooLong then w.settle else w
  let width :=
    settled.row.length + settled.space.length +
      settled.word.length
  if limit ≤ settled.row.length ∨ limit ≤ width then
    let after := settled.finish limit
    if c.isGap && after.space.isEmpty then after else
      after.add c
  else
    settled.add c

/- The rows when all characters were read. -/
def rows (w : Wrapping) : List (List Cell) :=
  let hanging :=
    if w.row.isEmpty && w.word.isEmpty &&
      !w.space.isEmpty then
      [[]]
    else
      []
  let last := w.settle.row
  let rest := if last.isEmpty then [] else [last]
  let all := w.finished ++ hanging ++ rest
  if all.isEmpty then [[]] else all

end Wrapping

/- The rows of limited width that a row is broken into. -/
def Cell.wrap
    (limit : Nat)
    (row : List Cell) : List (List Cell) :=
  (row.foldl (Wrapping.step limit) Wrapping.empty).rows

end Bracketry
