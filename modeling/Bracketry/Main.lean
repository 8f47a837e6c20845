import Bracketry.Command
import Bracketry.Inspector.Frame

/-
  This file is the command line: it reads and writes files,
  and lets the library decide on all else.

  The inspector shows a screen after each line of input,
  which names a key: a character, or one of the words of
  `keyNames`.
-/

namespace Bracketry

namespace Command

/- The problem of a file as the system tells it. -/
def problemText : IO.Error → String
| .noFileOrDirectory _ _ _ => PathProblem.missing.message
| .inappropriateType _ code _ =>
    if code = 21 ∨ code = 0 - 21 then
      PathProblem.isDirectory.message
    else
      PathProblem.notDirectory.message
| .invalidArgument file code details =>
    if code = 36 ∨ code = 0 - 36 then
      PathProblem.tooLong.message
    else
      toString (IO.Error.invalidArgument file code details)
| problem => toString problem

/- Read or write a file; a problem is told by its text. -/
def attempt {Result : Type}
    (action : IO Result) : IO (Except String Result) := do
  try
    return .ok (← action)
  catch problem =>
    return .error (problemText problem)

/- Show a message of failure. -/
def complain (message : String) : IO UInt32 := do
  (← IO.getStderr).putStr (failureText message)
  return 1

/- Print and write a reply. -/
def Reply.perform (r : Reply) : IO UInt32 := do
  IO.print r.printed
  match r.failure?, r.output? with
  | some message, _ => complain message
  | none, none => return 0
  | none, some (path, text) =>
      match ← attempt (IO.FS.writeFile path text) with
      | .ok () => return 0
      | .error problem =>
          complain (cannotWrite path problem)

/- Words for keys that are not characters. -/
def keyNames : List (String × Inspector.Key) :=
  [("esc", .escape), ("tab", .tab), ("up", .up),
    ("down", .down), ("pageup", .pageUp),
      ("pagedown", .pageDown), ("home", .home),
    ("end", .last)]

/- The key that a line of input names. -/
def keyOfLine (line : String) : Inspector.Key :=
  let word := line.trimAscii.toString
  match keyNames.lookup word, word.toList with
  | some key, _ => key
  | none, c :: _ => .char c
  | none, [] => .enter

/- Show an inspector on a screen of common size. -/
def display (i : Inspector) : IO Inspector := do
  let (after, rows) := i.draw 80 24
  for row in rows do
    IO.println (String.ofList (row.map (·.char)))
  return after

/- Inspect a source until the user is done or input ends. -/
def inspectSource (file source : String) : IO UInt32 := do
  let input ← IO.getStdin
  let mut inspector ← display (.ofSource file source)
  repeat
    let line ← input.getLine
    if line.isEmpty then
      break
    inspector := inspector.press (keyOfLine line)
    if inspector.done then
      break
    inspector ← display inspector
  return 0

/- Carry out a command on the text of its file. -/
def perform (source : String) : Command → IO UInt32
| .inspect file => inspectSource file source
| command => (command.reply source).perform

/- Carry out the command that arguments ask for. -/
def carryOut (arguments : List String) : IO UInt32 := do
  match ofArguments? arguments with
  | none =>
      (← IO.getStderr).putStr usage
      return 2
  | some command =>
      match command.file? with
      | none => command.perform ""
      | some path =>
          match ← attempt (IO.FS.readFile path) with
          | .ok source => command.perform source
          | .error problem =>
              complain (cannotRead path problem)

end Command

end Bracketry

/- The program. -/
def main (arguments : List String) : IO UInt32 :=
  Bracketry.Command.carryOut arguments
