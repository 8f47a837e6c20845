import Bracketry.Fault
import Bracketry.Identifier

/-
  This file defines what names mean at a point of a program.

  Blocks open frames, which are numbered in order of opening
  and never thrown away; each frame knows the frame it was
  opened in.  A name means the variable of the innermost
  open frame that has it, and a function if there is none.

  To add a name is a step that may be refused.  Like the
  steps of reading it gives a result or a fault, and the
  state left.
-/

namespace Bracketry

/- What a step gives, if it is not refused. -/
def accepted
    {σ α : Type} :
    EStateM.Result Fault σ α → Except Fault (α × σ)
| .ok a after => .ok (a, after)
| .error fault _ => .error fault

/- The functions and records of a program, in order. -/
structure Globals where
  prototypes : List Prototype
  records : List Record
deriving DecidableEq, Repr

namespace Globals

/- No functions and no records. -/
def empty : Globals :=
  ⟨[], []⟩

/- The function with a given name. -/
def prototype?
    (g : Globals)
    (name : String) : Option Prototype :=
  g.prototypes.find? fun p => p.name.name = name

/- The record with a given name. -/
def record?
    (g : Globals)
    (name : String) : Option Record :=
  g.records.find? fun r => r.name = name

/- Add a function that has no body yet. -/
def addPrototype
    (name : Identifier)
    (params : List Identifier)
    (line : Nat) : EStateM Fault Globals Prototype :=
  fun g =>
    match g.prototype? name.name with
    | some _ => .error ⟨.redeclared name.name, line⟩ g
    | none =>
        let p : Prototype :=
          ⟨g.prototypes.length, name, params, false, line⟩
        .ok p { g with prototypes := g.prototypes ++ [p] }

/- A function that can be added, and what is known then. -/
def declarePrototype
    (g : Globals)
    (name : Identifier)
    (params : List Identifier)
    (line : Nat) : Except Fault (Prototype × Globals) :=
  accepted (addPrototype name params line g)

/- Note a body, whose header names `params`. -/
def implement
    (g : Globals)
    (id : Nat)
    (params : List Identifier) : Globals :=
  { g with
    prototypes := g.prototypes.modify id fun p =>
      { p with implemented := true, params := params } }

/- Add a record. -/
def addRecord
    (name : String)
    (members : List (String × Ty))
    (line : Nat) : EStateM Fault Globals Record :=
  fun g =>
    match g.record? name with
    | some _ => .error ⟨.redeclared name, line⟩ g
    | none =>
        let r : Record :=
          ⟨g.records.length, name, members, line⟩
        .ok r { g with records := g.records ++ [r] }

/- A record that can be added, and what is known then. -/
def declareRecord
    (g : Globals)
    (name : String)
    (members : List (String × Ty))
    (line : Nat) : Except Fault (Record × Globals) :=
  accepted (addRecord name members line g)

end Globals

/- The variables of a block, and the frame around it. -/
structure Frame where
  parent : Option Nat
  declared : List Identifier
deriving DecidableEq, Repr

/- The variable of the block with a given name. -/
def Frame.find?
    (f : Frame)
    (name : String) : Option Identifier :=
  f.declared.find? fun x => x.name = name

/- What a name stands for. -/
inductive Referent where
| var (identifier : Identifier)
| func (prototype : Prototype)
deriving DecidableEq, Repr

/- All frames opened so far, and the innermost open one. -/
structure Scope where
  frames : List Frame
  current : Option Nat
  globals : Globals
deriving DecidableEq, Repr

namespace Scope

/- No frame is open, and nothing is declared. -/
def empty : Scope :=
  ⟨[], none, .empty⟩

/- Open a frame inside the current one. -/
def enter (s : Scope) : Nat × Scope :=
  let id := s.frames.length
  (id,
    { s with
      frames := s.frames ++ [⟨s.current, []⟩]
      current := some id })

/- Go back to the frame around the current one. -/
def leave (s : Scope) : Scope :=
  { s with
    current := do
      let frame ← s.frames[← s.current]?
      frame.parent }

/-
  The frames from a given one outward.  A frame is numbered
  after the one around it, so no more steps are needed than
  there are frames.
-/
def outward
    (frames : List Frame) :
    Nat → Option Nat → List Frame
| 0, _ => []
| _, none => []
| steps + 1, some id =>
    match frames[id]? with
    | none => []
    | some frame =>
        frame :: outward frames steps frame.parent

/- The open frames, innermost first. -/
def visible (s : Scope) : List Frame :=
  outward s.frames s.frames.length s.current

/- The variable that a name stands for, if it is one. -/
def var?
    (s : Scope)
    (name : String) : Option Identifier :=
  s.visible.findSome? fun frame => frame.find? name

/- What a name stands for. -/
def lookup
    (s : Scope)
    (name : String) : Option Referent :=
  match s.var? name with
  | some x => some (.var x)
  | none => (s.globals.prototype? name).map .func

/- Bind an identifier in the current frame. -/
def addVariable
    (x : Identifier) : EStateM Fault Scope Unit :=
  fun s =>
    match s.current with
    | none =>
        .error (.ofTypes (.outsideFunction x.name) x.line) s
    | some id =>
        match s.frames[id]?.bind (·.find? x.name) with
        | some _ => .error ⟨.redeclared x.name, x.line⟩ s
        | none =>
            .ok () { s with
              frames := s.frames.modify id fun frame =>
                { frame with
                  declared := x :: frame.declared } }

/- What is known once an identifier is bound. -/
def declare
    (s : Scope)
    (x : Identifier) : Except Fault Scope :=
  (accepted (addVariable x s)).map (·.2)

/- A step on the functions and records. -/
def onGlobals
    {α : Type}
    (step : EStateM Fault Globals α) :
      EStateM Fault Scope α :=
  fun s =>
    match step s.globals with
    | .ok a globals => .ok a { s with globals := globals }
    | .error fault globals =>
        .error fault { s with globals := globals }

/- The binding of a variable in the current frame. -/
def blockBinding
    (s : Scope)
    (function : String) : Binding :=
  .block function (s.current.getD 0)

end Scope

end Bracketry
