import Bracketry.Expr.Parser
import Bracketry.Stmt
import Bracketry.Ty.Parser

/-
  This file reads statements.

  A variable is declared only behind its initializer, which
  therefore cannot see it.  Statements nest to a depth for
  which the number of tokens left is always enough.
-/

namespace Bracketry

/-
  The type of a place declared with a type and given a
  value.  Array literals convert element by element; any
  other array must have the element types already.
-/
def Expr.agree
    (value : Expr)
    (declared : Ty) : Except Fault Ty :=
  if declared.IsArray then
    match declared.inferFrom value.ty with
    | some t =>
        if value.IsArrayLiteral ∨ t = value.ty then
          .ok t
        else
          .error (.ofTypes (.mismatch value.ty declared)
            value.line)
    | none =>
        .error (.ofTypes (.mismatch value.ty declared)
          value.line)
  else if value.ty.ConvertsTo declared then
    .ok declared
  else
    .error ⟨.noConversion value.ty declared, value.line⟩

namespace Stmt

/- The type and first value of a variable being declared. -/
def initializer
    (declared : Ty)
    (name : String)
    (line : Nat) : Parse (Ty × Expr) := do
  if ← Parse.accept (.symbol .assign) then
    let value ← Expr.parse
    let t ← Parse.ofExcept (value.agree declared)
    return (t, value)
  else
    unless declared.IsFullySpecified do
      Parse.mistyped (.unsizedVariable name) line
    let value ← Parse.ofExcept (Expr.initial declared line)
    return (declared, value)

/- Bind a variable in the current block. -/
def bind
    (name : String)
    (t : Ty)
    (line : Nat) : Parse Identifier := do
  let s ← get
  match s.function with
  | none => Parse.mistyped (.outsideFunction name) line
  | some enclosing =>
      let x : Identifier :=
        ⟨name, t, s.scope.blockBinding enclosing.name, line⟩
      Parse.onScope (Scope.addVariable x)
      return x

/- A declaration of a variable. -/
def declaration : Parse Stmt := do
  let base ← Ty.parseName
  let outer ← Ty.parseDimensions base
  let line := (← get).line
  let name ← Parse.identifier
  let declared ← Ty.parseInner outer
  if declared = .void then
    Parse.mistyped (.voidVariable name) line
  let (t, value) ← initializer declared name line
  Parse.expect (.symbol .semicolon)
  let x ← bind name t line
  return .assign (.var x) value line

/-
  A name starts a declaration when it is the name of a
  record and no variable hides it.
-/
def startsDeclaration
    (scope : Scope)
    (name : String) : Bool :=
  (scope.globals.record? name).isSome &&
    (scope.var? name).isNone

/- An expression that may stand as a condition. -/
def condition : Parse Expr := do
  let line := (← get).line
  let e ← Expr.parse
  Parse.ofExcept (e.requireCondition line)
  return e

/- A value stored in a place. -/
def assignment
    (x : Identifier)
    (line : Nat) : Parse Stmt := do
  Parse.advance
  let target ← Expr.access Expr.parse x
  Parse.expect (.symbol .assign)
  let value ← Expr.parse
  let _ ← Parse.ofExcept (value.agree target.ty)
  Parse.expect (.symbol .semicolon)
  return .assign target value line

/- A call for its effect. -/
def evaluation : Parse Stmt := do
  let line := (← get).line
  let e ← Expr.parse
  unless e.IsCall do
    Parse.mistyped .callExpected line
  Parse.expect (.symbol .semicolon)
  return .evaluate e line

/- A return, which must agree with its function. -/
def returned : Parse Stmt := do
  let line := (← get).line
  Parse.advance
  match (← get).function with
  | none => Parse.unexpected .declaration
  | some enclosing =>
      if ← Parse.accept (.symbol .semicolon) then
        if enclosing.returnType ≠ .void then
          Parse.mistyped (.missingValue enclosing.name) line
        return .ret none enclosing.returnType line
      else
        if enclosing.returnType = .void then
          Parse.mistyped (.unwantedValue enclosing.name)
            line
        let value ← Expr.parse
        unless value.ty.ConvertsTo enclosing.returnType do
          throw ⟨.noConversion value.ty
            enclosing.returnType, line⟩
        Parse.expect (.symbol .semicolon)
        return .ret (some value) enclosing.returnType line

/- A break, which must stand in a loop. -/
def broken : Parse Stmt := do
  let line := (← get).line
  Parse.advance
  if (← get).loopDepth = 0 then
    throw ⟨.misplacedBreak, line⟩
  Parse.expect (.symbol .semicolon)
  return .breakLoop line

/- A statement that starts with a name. -/
def leading
    (name : String) : Parse Stmt := do
  let s ← get
  if startsDeclaration s.scope name then
    declaration
  else
    match s.scope.lookup name with
    | some (.var x) => assignment x s.line
    | some (.func _) => evaluation
    | none => throw ⟨.undeclared name, s.line⟩

/- Statements up to a closing brace. -/
def untilBrace
    (statement : Parse Stmt) :
    Nat → Parse (List Stmt)
| 0 => return []
| turns + 1 => do
    match (← get).lookahead with
    | .symbol .rightBrace => return []
    | .endOfFile => return []
    | _ =>
        let first ← statement
        let rest ← untilBrace statement turns
        return first :: rest

/- Statements in braces, in the current frame. -/
def braced (statement : Parse Stmt) : Parse Stmt := do
  let line := (← get).line
  Parse.expect (.symbol .leftBrace)
  let statements ← untilBrace statement (← get).left
  Parse.expect (.symbol .rightBrace)
  return .ofList statements line

/- Statements in braces, in a frame of their own. -/
def block (statement : Parse Stmt) : Parse Stmt := do
  modify fun s => { s with scope := s.scope.enter.2 }
  let body ← braced statement
  modify fun s => { s with scope := s.scope.leave }
  return body

/- A statement in which a break may stand. -/
def loopBody (statement : Parse Stmt) : Parse Stmt := do
  modify fun s => { s with loopDepth := s.loopDepth + 1 }
  let body ← statement
  modify fun s => { s with loopDepth := s.loopDepth - 1 }
  return body

/- A choice between one or two statements. -/
def choice (statement : Parse Stmt) : Parse Stmt := do
  let line := (← get).line
  Parse.advance
  let decision ← condition
  let body ← statement
  if ← Parse.accept (.keyword .elseWord) then
    let other ← statement
    return .ifElse decision body other line
  else
    return .ifThen decision body line

/- A loop that tests first. -/
def whileLoopOf (statement : Parse Stmt) : Parse Stmt := do
  let line := (← get).line
  Parse.advance
  let decision ← condition
  let body ← loopBody statement
  return .whileLoop decision body line

/- A loop that tests last. -/
def doWhileOf (statement : Parse Stmt) : Parse Stmt := do
  let line := (← get).line
  Parse.advance
  let body ← loopBody statement
  Parse.expect (.keyword .whileWord)
  let decision ← condition
  Parse.expect (.symbol .semicolon)
  return .doWhile body decision line

/- Nothing. -/
def nothing : Parse Stmt := do
  let line := (← get).line
  Parse.advance
  return .empty line

/- One statement, given how to read the statements in it. -/
def one (statement : Parse Stmt) : Parse Stmt := do
  match (← get).lookahead with
  | .keyword .ifWord => choice statement
  | .keyword .whileWord => whileLoopOf statement
  | .keyword .doWord => doWhileOf statement
  | .keyword .returnWord => returned
  | .keyword .breakWord => broken
  | .symbol .leftBrace => block statement
  | .symbol .semicolon => nothing
  | .typeName _ => declaration
  | .identifier name => leading name
  | _ => evaluation

/- A statement nested at most to a given depth. -/
def nested : Nat → Parse Stmt
| 0 => evaluation
| depth + 1 => one (nested depth)

/- A statement. -/
def parse : Parse Stmt := do
  nested (← get).left

end Stmt

end Bracketry
