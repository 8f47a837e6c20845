import Bracketry.Highlight
import Bracketry.Inspector

/-
  This file draws the inspector: two panes side by side, and
  below them a row with the status and the keys.

  Drawing is what limits how far a pane is scrolled, since
  only then its height is known.
-/

namespace Bracketry

namespace Inspector

/- Lines shown in a pane of a given height. -/
def visibleLines (height : Nat) : Nat :=
  max 1 (height - 2)

/- The first line shown, no farther than the last page. -/
def clamp
    (scroll count visible : Nat) : Nat :=
  min scroll (count - visible)

/- The lines of a text that are shown. -/
def window {Line : Type}
    (scroll visible : Nat)
    (lines : List Line) : List Line :=
  (lines.drop scroll).take visible

/- Limit the scrolling of panes of a given height. -/
def settle
    (i : Inspector)
    (height : Nat) : Inspector :=
  let visible := visibleLines height
  let sourceCount := (Text.lines i.source).length
  let settled :=
    { i with
      sourceScroll :=
        clamp i.sourceScroll sourceCount visible }
  match i.result with
  | .error _ => settled
  | .ok code =>
      let codeCount := (Text.lines code).length
      { settled with
        codeScroll := clamp i.codeScroll codeCount visible }

/- The border of a pane. -/
def border
    (i : Inspector)
    (pane : Pane) : Style :=
  if i.focus = pane then
    .strong Palette.focused
  else
    .colour Palette.idle

/- The line of the fault, if there is one. -/
def faultLine? (i : Inspector) : Option Nat :=
  match i.result with
  | .ok _ => none
  | .error fault => some fault.line

/- The look of the text on the line of the fault. -/
def faultStyle : Style :=
  ⟨some .white, some Palette.failed, true⟩

/- A source line behind its number. -/
def numberedLine
    (faulty : Bool)
    (number : Nat)
    (line : List Char) : List Span :=
  let label :=
    (Text.alignRight 4 (toString number) ++ " ").toList
  let spans := Highlight.source line
  if faulty then
    ⟨label, .strong Palette.failed⟩ ::
      spans.map fun s => { s with style := faultStyle }
  else
    ⟨label, .colour Palette.muted⟩ :: spans

/- The source lines that are shown, with their numbers. -/
def sourceWindow
    (i : Inspector)
    (height : Nat) : List (List Char × Nat) :=
  window i.sourceScroll (visibleLines height)
    ((Text.lines i.source).zipIdx 1)

/- The pane of the source text. -/
def sourceBox
    (i : Inspector)
    (height : Nat) : Box :=
  { title := " Source ".toList
    border := i.border .source
    content :=
      (i.sourceWindow height).map fun (line, number) =>
        Span.row (numberedLine (i.faultLine? = some number)
          number line) }

/- The rows that describe a fault. -/
def faultRows
    (fault : Fault)
    (width : Nat) : List (List Cell) :=
  let title := fault.category.name ++ " error"
  [[⟨title.toList, .strong Palette.failed⟩],
    [],
    [⟨fault.message.toList, .colour Palette.text⟩]].flatMap
      fun (line : List Span) =>
        Cell.wrap width (Span.row line)

/- The pane of the code, or of the fault. -/
def codeBox
    (i : Inspector)
    (width height : Nat) : Box :=
  match i.result with
  | .error fault =>
      { title := " Error ".toList
        border := i.border .code
        content := faultRows fault (width - 2) }
  | .ok code =>
      { title := " IR ".toList
        border := i.border .code
        content :=
          (window i.codeScroll (visibleLines height)
            (Text.lines code)).map fun line =>
              Span.row (Highlight.code line) }

/- The keys that the last row names. -/
def keyHelp : List (String × String) :=
  [("Tab", "Focus"), ("↑↓", "Scroll"), ("n/p", "Function"),
    ("q", "Quit")]

/- The names of the keys and what they do. -/
def helpSpans : List Span :=
  keyHelp.flatMap fun (key, action) =>
    [⟨(" " ++ key ++ " ").toList,
        ⟨some .black, some Palette.muted, false⟩⟩,
      ⟨(" " ++ action ++ " ").toList, .colour Palette.text⟩]

/- The look of the status. -/
def statusStyle (i : Inspector) : Style :=
  match i.result with
  | .ok _ => .colour Palette.compiled
  | .error _ => .strong Palette.failed

/- The last row: the status and the keys. -/
def statusRow
    (i : Inspector)
    (left right : Nat) : List Cell :=
  let status : Span :=
    ⟨' ' :: i.status.toList, i.statusStyle⟩
  Cell.fit left status.cells ++
    Cell.fitRight right (Span.row helpSpans)

/- All rows of a screen; the left half may be wider. -/
def frame
    (i : Inspector)
    (width : Nat) :
    Nat → List (List Cell)
| 0 => []
| height + 1 =>
    let left := (width + 1) / 2
    let right := width / 2
    List.zipWith (· ++ ·)
      ((i.sourceBox height).rows left height)
      ((i.codeBox right height).rows right height) ++
      [i.statusRow left right]

/- Draw on a screen of a given size. -/
def draw
    (i : Inspector)
    (width height : Nat) : Inspector × List (List Cell) :=
  let settled := i.settle (height - 1)
  (settled, settled.frame width height)

end Inspector

end Bracketry
