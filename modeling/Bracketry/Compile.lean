import Bracketry.Program.Parser
import Bracketry.Stmt.Lowering

/-
  This file writes the code of functions and programs, and
  turns a source text into the text of its code.
-/

namespace Bracketry

namespace FunctionDef

/- Give a parameter a slot, and store the argument there. -/
def lowerParameter (x : Identifier) : Build Unit := do
  Build.allocate x.storage x.ty
  Build.append
    (.store x.incoming (.named x.storage (.pointer x.ty)))

/- Give all parameters their slots. -/
def lowerParameters : List Identifier → Build Unit
| [] => return
| x :: rest => do
    lowerParameter x
    lowerParameters rest

/- Falling off the end returns the initial value. -/
def lowerEnd (t : Ty) : Build Unit := do
  unless (← get).between do
    if t = .void then
      Build.append (.ret none)
    else
      Build.append (.ret (some (Value.initial t)))

/- Write a function, starting with no lines and no slots. -/
def lower (f : FunctionDef) : Build Definition := do
  modify fun b =>
    { b with
      lines := #[], allocated := [], between := false }
  lowerParameters f.signature.params
  let before ← Build.label
  let after ← Build.label
  if f.body.needsBefore then
    Build.place before
  f.body.lower before after
  if f.body.needsAfter then
    Build.place after
  lowerEnd f.signature.returnType
  return ⟨f.signature, (← get).lines.toList⟩

/- Write functions in order. -/
def lowerAll : List FunctionDef → Build (List Definition)
| [] => return []
| f :: rest => do
    let definition ← f.lower
    let definitions ← lowerAll rest
    return definition :: definitions

end FunctionDef

namespace Program

/- The first function declared that has no body. -/
def unimplemented? (p : Program) : Option Prototype :=
  p.globals.prototypes.find? fun prototype =>
    !prototype.implemented

/- Write a program; all functions must have a body. -/
def lower (p : Program) : Except Fault Listing :=
  match p.unimplemented? with
  | some prototype =>
      .error ⟨.unimplemented prototype.name.name,
        prototype.line⟩
  | none =>
      match
        FunctionDef.lowerAll p.functions Builder.empty with
      | .ok definitions _ =>
          .ok ⟨p.globals.records, definitions⟩
      | .error fault _ => .error fault

end Program

/- The code of a program, or the first fault in its text. -/
def compile (source : String) : Except Fault String := do
  let program ← Program.parse source
  let listing ← program.lower
  return listing.text

end Bracketry
