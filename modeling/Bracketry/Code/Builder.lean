import Bracketry.Code
import Bracketry.Fault

/-
  This file defines the state in which code is written, and
  the steps that keep every block closed by one terminator.

  Before a label a block that is still open is closed by a
  jump to that label, and an instruction behind a terminator
  gets a block of its own, which nothing reaches.  Labels
  and temporaries are numbered upward and never used twice.
-/

namespace Bracketry

/-
  Code being written: the next numbers, the lines so far,
  whether the last of them ended a block, the slots that
  have been allocated, and the exits of the loops around.
-/
structure Builder where
  nextLabel : Nat
  nextTemporary : Nat
  lines : Array Line
  between : Bool
  allocated : List String
  loopExits : List Label

namespace Builder

/- Nothing is written yet. -/
def empty : Builder :=
  { nextLabel := 1
    nextTemporary := 1
    lines := #[]
    between := false
    allocated := []
    loopExits := [] }

/- A label that was not handed out before. -/
def reserve (b : Builder) : Label × Builder :=
  (⟨b.nextLabel⟩, { b with nextLabel := b.nextLabel + 1 })

/- The number of a temporary not handed out before. -/
def number (b : Builder) : Nat × Builder :=
  (b.nextTemporary,
    { b with nextTemporary := b.nextTemporary + 1 })

/- Write a line. -/
def write
    (b : Builder)
    (line : Line) : Builder :=
  { b with lines := b.lines.push line }

/- Start a block, which an open one before runs into. -/
def place
    (b : Builder)
    (label : Label) : Builder :=
  let closed :=
    if b.between then b else
      b.write (.instruction (.jump label))
  { closed.write (.label label) with between := false }

/- Make sure that a block is open. -/
def reopen (b : Builder) : Builder :=
  if b.between then
    let (dead, reserved) := b.reserve
    reserved.place dead
  else
    b

/- Write an instruction. -/
def append
    (b : Builder)
    (i : Instruction) : Builder :=
  { b.reopen.write (.instruction i) with
    between := i.endsBlock }

/- Leave an open block for a label. -/
def jump
    (b : Builder)
    (label : Label) : Builder :=
  if b.between then b else b.append (.jump label)

/-
  Leave a block for one of two labels.  Where a label is
  missing, a fresh one is placed right behind the branch.
-/
def branch
    (b : Builder)
    (condition : Value)
    (onTrue onFalse : Option Label) : Builder :=
  match onTrue, onFalse with
  | some t, some f => b.append (.branch condition t f)
  | some t, none =>
      let (next, reserved) := b.reserve
      (reserved.append (.branch condition t next)).place
        next
  | none, some f =>
      let (next, reserved) := b.reserve
      (reserved.append (.branch condition next f)).place
        next
  | none, none => b

/- Allocate a slot unless it has been allocated before. -/
def allocate
    (b : Builder)
    (slot : String)
    (t : Ty) : Builder :=
  if slot ∈ b.allocated then
    b
  else
    { b with allocated := slot :: b.allocated }.append
      (.allocate slot t)

end Builder

/- A step of writing: a result or fault, and the state. -/
abbrev Build (α : Type) :=
  EStateM Fault Builder α

namespace Build

variable {α : Type}

/- Hand out a label. -/
def label : Build Label :=
  modifyGet Builder.reserve

/- Hand out the number of a temporary. -/
def number : Build Nat :=
  modifyGet Builder.number

/- Start a block. -/
def place (label : Label) : Build Unit :=
  modify (·.place label)

/- Write an instruction. -/
def append (i : Instruction) : Build Unit :=
  modify (·.append i)

/- Leave an open block for a label. -/
def jump (label : Label) : Build Unit :=
  modify (·.jump label)

/- Leave a block for one of two labels. -/
def branch
    (condition : Value)
    (onTrue onFalse : Option Label) : Build Unit :=
  modify (·.branch condition onTrue onFalse)

/- Allocate a slot. -/
def allocate
    (slot : String)
    (t : Ty) : Build Unit :=
  modify (·.allocate slot t)

/- Write an instruction that defines a temporary. -/
def define
    (t : Ty)
    (i : Nat → Instruction) : Build Value := do
  let dest ← number
  append (i dest)
  return .temporary dest t

/-
  Write the body of a loop with a given exit.  The exit is
  forgotten behind the body, also when the body has a fault.
-/
def insideLoop
    (exit : Label)
    (body : Build α) : Build α :=
  fun b =>
    match
      body { b with loopExits := exit :: b.loopExits } with
    | .ok a after =>
        .ok a { after with
          loopExits := after.loopExits.tail }
    | .error fault after =>
        .error fault
          { after with loopExits := after.loopExits.tail }

end Build

end Bracketry
