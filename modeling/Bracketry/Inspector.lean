import Bracketry.Compile
import Bracketry.Text

/-
  This file defines the inspector, which shows a source text
  beside its code, and what keys do to it.
-/

namespace Bracketry

/- The two halves of the screen. -/
inductive Pane where
| source
| code
deriving DecidableEq, Repr

/- The half that is not the given one. -/
def Pane.other : Pane → Pane
| .source => .code
| .code => .source

/-
  A source text, the code or the fault it leads to, the pane
  that keys act on, the first line shown in each pane,
  whether the user is done, and the message at the bottom.
-/
structure Inspector where
  file : String
  source : String
  result : Except Fault String
  focus : Pane
  sourceScroll : Nat
  codeScroll : Nat
  done : Bool
  status : String

/- Lines moved by the keys that turn pages. -/
def pageLength : Nat :=
  20

/- The farthest that a pane can be scrolled. -/
def scrollLimit : Nat :=
  Nat.pow 2 64 - 1

namespace Inspector

/- The first lines of functions in the text of code. -/
def functionLines (code : String) : List Nat :=
  ((Text.lines code).zipIdx.filter fun numbered =>
    "define ".toList.isPrefixOf numbered.1).map (·.2)

/- The message on the outcome for a file. -/
def outcome
    (file : String) :
    Except Fault String → String
| .ok code =>
    file ++ ": " ++ toString (functionLines code).length ++
      " function(s) compiled"
| .error fault =>
    file ++ ": " ++ fault.message

/- The first line shown, so that a fault is in sight. -/
def firstLine : Except Fault String → Nat
| .ok _ => 0
| .error fault => fault.line - pageLength / 2

/- The inspector as it starts on a source text. -/
def ofSource
    (file source : String) : Inspector :=
  let result := compile source
  { file := file
    source := source
    result := result
    focus := .source
    sourceScroll := firstLine result
    codeScroll := 0
    done := false
    status := outcome file result }

/- Change how far the pane in focus is scrolled. -/
def scroll
    (i : Inspector)
    (move : Nat → Nat) : Inspector :=
  match i.focus with
  | .source =>
      { i with sourceScroll := move i.sourceScroll }
  | .code => { i with codeScroll := move i.codeScroll }

/- Ways to go from function to function. -/
inductive Direction where
| next
| previous
deriving DecidableEq, Repr

/- The line to go to from a line, among ascending ones. -/
def Direction.target?
    (current : Nat)
    (starts : List Nat) :
    Direction → Option Nat
| .next => starts.find? fun start => current < start
| .previous => starts.reverse.find? fun start =>
    start < current

/- The message when there is no line to go to. -/
def Direction.stuck : Direction → String
| .next => "Already at the last function"
| .previous => "Already at the first function"

/- The header of the function on a line of code. -/
def header
    (code : String)
    (line : Nat) : String :=
  let text := ((Text.lines code)[line]?).getD []
  String.ofList (Text.dropEnd " \x7b".toList text)

/- Show the next or the previous function of the code. -/
def jump
    (i : Inspector)
    (direction : Direction) : Inspector :=
  match i.result with
  | .error _ => { i with status := "No IR to navigate" }
  | .ok code =>
      let current :=
        min i.codeScroll (Text.lines code).length
      match
        direction.target? current (functionLines code) with
      | some line =>
          { i with
            codeScroll := line
            focus := .code
            status := header code line }
      | none => { i with status := direction.stuck }

/- The keys of a keyboard. -/
inductive Key where
| escape
| tab
| backTab
| up
| down
| left
| right
| pageUp
| pageDown
| home
| last
| enter
| char (c : Char)
deriving DecidableEq, Repr

/- What a key does; most keys do nothing. -/
def press (i : Inspector) : Key → Inspector
| .escape => { i with done := true }
| .char 'q' => { i with done := true }
| .char 'Q' => { i with done := true }
| .tab => { i with focus := i.focus.other }
| .backTab => { i with focus := i.focus.other }
| .up => i.scroll fun line => line - 1
| .down => i.scroll fun line => min scrollLimit (line + 1)
| .pageUp => i.scroll fun line => line - pageLength
| .pageDown =>
    i.scroll fun line => min scrollLimit (line + pageLength)
| .home => i.scroll fun _ => 0
| .last => i.scroll fun _ => scrollLimit
| .char 'n' => i.jump .next
| .char 'p' => i.jump .previous
| _ => i

end Inspector

end Bracketry
