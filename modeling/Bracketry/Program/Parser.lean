import Bracketry.Stmt.Parser

/-
  This file reads records, functions and whole programs,
  each of them headed by a bracket.
-/

namespace Bracketry

/- Functions in order, with all headers and records. -/
structure Program where
  functions : List FunctionDef
  globals : Globals

namespace Program

/- A record, behind its opening bracket. -/
def record : Parse Unit := do
  Parse.advance
  let line := (← get).line
  let name ← Parse.identifier
  let fields ← Field.parseList
  Parse.expect (.symbol .rightBracket)
  let _ ← Parse.accept (.symbol .semicolon)
  if let some field := Field.repeated? [] fields then
    throw ⟨.redeclared field.name, field.line⟩
  let members := fields.map fun field =>
    (field.name, field.ty)
  let _ ← Parse.onScope
    (Scope.onGlobals (Globals.addRecord name members line))

/- Bind the parameters in the current frame. -/
def parameters : List Field → Parse (List Identifier)
| [] => return []
| field :: rest => do
    if field.ty = .void then
      Parse.mistyped (.voidParameter field.name) field.line
    let x : Identifier :=
      ⟨field.name, field.ty, .argument, field.line⟩
    Parse.onScope (Scope.addVariable x)
    let others ← parameters rest
    return x :: others

/-
  The prototype of a header: the one declared before, with
  which it must agree, or a new one.
-/
def prototype
    (name : String)
    (returnType : Ty)
    (params : List Identifier)
    (hasBody : Bool)
    (line : Nat) : Parse Prototype := do
  let s ← get
  match s.scope.globals.prototype? name with
  | some p =>
      unless p.HasSignature returnType params do
        throw ⟨.conflicting name, line⟩
      if hasBody && p.implemented then
        throw ⟨.redefined name, line⟩
      return p
  | none =>
      let callee : Identifier :=
        ⟨name, returnType, .global, line⟩
      Parse.onScope
        (Scope.onGlobals
          (Globals.addPrototype callee params line))

/-
  The body of a function.  It sees the parameter names of
  its own header, whatever earlier headers called them.
-/
def body
    (p : Prototype)
    (params : List Identifier)
    (line : Nat) : Parse FunctionDef := do
  let signature :=
    { p with implemented := true, params := params }
  modify fun s =>
    { s with
      scope :=
        { s.scope with
          globals := s.scope.globals.implement p.id params }
      function := some ⟨p.name.name, p.returnType⟩ }
  let statements ← Stmt.braced Stmt.parse
  modify fun s =>
    { s with scope := s.scope.leave, function := none }
  return ⟨signature, statements, line⟩

/- A function, behind its opening bracket. -/
def function : Parse (Option FunctionDef) := do
  let base ← Ty.parseName
  let returnType ← Ty.parseDimensions base
  let line := (← get).line
  let name ← Parse.identifier
  let fields ← Field.parseList
  Parse.expect (.symbol .rightBracket)
  modify fun s => { s with scope := s.scope.enter.2 }
  let params ← parameters fields
  let hasBody :=
    decide ((← get).lookahead ≠ .symbol .semicolon)
  let p ← prototype name returnType params hasBody line
  if hasBody then
    return some (← body p params line)
  else
    Parse.advance
    modify fun s => { s with scope := s.scope.leave }
    return none

/- A record or a function, which is given with a body. -/
def topLevel : Parse (Option FunctionDef) := do
  Parse.expect (.symbol .leftBracket)
  if (← get).lookahead = .keyword .structWord then
    record
    return none
  else
    function

/- The functions of all constructs that follow. -/
def constructs : Nat → Parse (List FunctionDef)
| 0 => return []
| turns + 1 => do
    if (← get).lookahead = .symbol .leftBracket then
      let first ← topLevel
      let rest ← constructs turns
      return first.toList ++ rest
    else
      return []

/- A whole program, up to the end of the file. -/
def whole : Parse Program := do
  Parse.settle
  let functions ← constructs (← get).left
  unless (← get).lookahead = .endOfFile do
    Parse.unexpected (.token (.symbol .leftBracket))
  return ⟨functions, (← get).scope.globals⟩

/- Read a program, with the state that is left. -/
def read (text : String) :
    EStateM.Result Fault Parser Program :=
  whole (.ofStream (.ofText text))

/- Read a program off a text. -/
def parse (text : String) : Except Fault Program :=
  match read text with
  | .ok program _ => .ok program
  | .error fault _ => .error fault

end Program

end Bracketry
