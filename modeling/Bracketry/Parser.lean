import Bracketry.Scope
import Bracketry.Token.Lexer

/-
  This file defines the state in which a program is read,
  and the steps that all parts of the grammar share.

  The tokens come from a stream that may end in a fault,
  which is met when the token at that point is asked for.
  Loops of the grammar are bounded by the number of tokens
  left: with none left only the end of the file is seen,
  where every loop stops.
-/

namespace Bracketry

/- The function whose body is being read. -/
structure Enclosing where
  name : String
  returnType : Ty
deriving DecidableEq, Repr

/-
  A program being read: the tokens left, the fault or the
  mark they end in, and what is known so far.
-/
structure Parser where
  tokens : List Lexeme
  fault? : Option LexFault
  final : Mark
  scope : Scope
  function : Option Enclosing
  loopDepth : Nat

namespace Parser

/- The next token. -/
def lookahead (s : Parser) : Token :=
  match s.tokens with
  | [] => .endOfFile
  | lexeme :: _ => lexeme.token

/- The mark behind the next token. -/
def mark (s : Parser) : Mark :=
  match s.tokens with
  | [] => s.final
  | lexeme :: _ => lexeme.mark

/- The line of the next token. -/
def line (s : Parser) : Nat :=
  s.mark.line

/- The number of tokens left. -/
def left (s : Parser) : Nat :=
  s.tokens.length

/- Before the first token of a stream. -/
def ofStream (stream : TokenStream) : Parser :=
  { tokens := stream.lexemes
    fault? := stream.fault?
    final := stream.final.mark
    scope := .empty
    function := none
    loopDepth := 0 }

end Parser

/- A step of reading: a result or fault, and the state. -/
abbrev Parse (α : Type) :=
  EStateM Fault Parser α

namespace Parse

variable {α : Type}

/- Take over the outcome of a check. -/
def ofExcept : Except Fault α → Parse α
| .ok a => pure a
| .error fault => throw fault

/- A step on the names that are known. -/
def onScope
    (step : EStateM Fault Scope α) : Parse α :=
  fun s =>
    match step s.scope with
    | .ok a scope => .ok a { s with scope := scope }
    | .error fault scope =>
        .error fault { s with scope := scope }

/- Something else is expected here. -/
def unexpected
    (expected : Expectation) : Parse α :=
  fun s => .error ⟨.unexpected expected s.lookahead, s.line⟩
    s

/- A problem of types on a given line. -/
def mistyped
    (problem : TypeProblem)
    (line : Nat) : Parse α :=
  throw (.ofTypes problem line)

/-
  The token now looked at must exist: behind the last one a
  stream may end in a fault.
-/
def settle : Parse Unit :=
  fun s =>
    match s.tokens, s.fault? with
    | [], some fault => .error (.ofLexFault fault) s
    | _, _ => .ok () s

/- Take the next token. -/
def advance : Parse Unit := do
  modify fun s => { s with tokens := s.tokens.tail }
  settle

/- Take the next token, which must be a given one. -/
def expect (token : Token) : Parse Unit := do
  if (← get).lookahead = token then
    advance
  else
    unexpected (.token token)

/- Take the next token, which must be an identifier. -/
def identifier : Parse String := do
  match (← get).lookahead with
  | .identifier name =>
      advance
      return name
  | _ => unexpected .identifier

/- Take the next token if it is a given one. -/
def accept (token : Token) : Parse Bool := do
  if (← get).lookahead = token then
    advance
    return true
  else
    return false

/- More items, each behind a comma. -/
def moreItems
    (item : Parse α) :
    Nat → Parse (List α)
| 0 => return []
| turns + 1 => do
    if ← accept (.symbol .comma) then
      let first ← item
      let rest ← moreItems item turns
      return first :: rest
    else
      return []

/- One or more items with commas between them. -/
def separated
    (item : Parse α) : Parse (List α) := do
  let first ← item
  let rest ← moreItems item (← get).left
  return first :: rest

end Parse

end Bracketry
