import Bracketry.Parser

/-
  This file reads types: a name of a type, and bracket
  groups that make arrays of it, before or behind the name
  declared.
-/

namespace Bracketry

namespace Ty

/- A type keyword or the name of a record. -/
def parseName : Parse Ty := do
  let s ← get
  match s.lookahead with
  | .typeName p =>
      Parse.advance
      return .primitive p
  | .identifier name =>
      match s.scope.globals.record? name with
      | some found =>
          Parse.advance
          return found.ty
      | none => throw ⟨.unknownType name, s.line⟩
  | _ => Parse.unexpected .typeName

/-
  The length in a bracket group; zero stands for an empty
  group, whose length is to be inferred.
-/
def parseLength : Parse Nat := do
  let s ← get
  match s.lookahead with
  | .integer n =>
      if lengthLimit < n then
        Parse.mistyped (.lengthTooGreat n) s.line
      else if n = 0 then
        Parse.mistyped .lengthNotPositive s.line
      else
        Parse.advance
        return n
  | _ => return 0

/- The lengths of a row of bracket groups. -/
def parseLengths : Nat → Parse (List Nat)
| 0 => return []
| turns + 1 => do
    if ← Parse.accept (.symbol .leftBracket) then
      let length ← parseLength
      Parse.expect (.symbol .rightBracket)
      let rest ← parseLengths turns
      return length :: rest
    else
      return []

/- Arrays of a type, the outermost length first. -/
def arrays
    (lengths : List Nat)
    (base : Ty) : Ty :=
  lengths.foldr .array base

/- The arrays that bracket groups make of a type. -/
def parseDimensions (base : Ty) : Parse Ty := do
  let lengths ← parseLengths (← get).left
  let s ← get
  if lengths ≠ [] ∧ base = .void then
    Parse.mistyped .arrayOfVoid s.line
  return arrays lengths base

/-
  Bracket groups behind the name declared nest inside those
  before it.
-/
def parseInner : Ty → Parse Ty
| .array n t => do
    let inner ← parseInner t
    return .array n inner
| base => parseDimensions base

end Ty

/- A parameter of a function or a member of a record. -/
structure Field where
  name : String
  ty : Ty
  line : Nat
deriving DecidableEq, Repr

namespace Field

/- A name with its type, which must be fully specified. -/
def parse : Parse Field := do
  let base ← Ty.parseName
  let outer ← Ty.parseDimensions base
  let s ← get
  let name ← Parse.identifier
  let t ← Ty.parseInner outer
  unless t.IsFullySpecified do
    Parse.mistyped (.unsizedField name) s.line
  return ⟨name, t, s.line⟩

/- Fields behind a colon, or none. -/
def parseList : Parse (List Field) := do
  if ← Parse.accept (.symbol .colon) then
    Parse.separated parse
  else
    return []

/- The first field whose name an earlier field has. -/
def repeated? :
    List String → List Field → Option Field
| _, [] => none
| seen, field :: rest =>
    if field.name ∈ seen then
      some field
    else
      repeated? (field.name :: seen) rest

end Field

end Bracketry
