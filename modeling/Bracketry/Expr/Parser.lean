import Bracketry.Expr
import Bracketry.Parser

/-
  This file reads expressions, resolving names and types on
  the way.

  Binary operators stand on six levels of precedence, each
  of them associating to the left.  The levels are one
  combinator, which knows its operands only as a step of
  reading; so the nesting of expressions is a recursion on a
  depth, for which the number of tokens left is always
  enough.

  Main declarations:
    * `Expr.nested` and `Expr.parse`
-/

namespace Bracketry

namespace Expr

/- An expression must be usable as a condition. -/
def requireCondition
    (e : Expr)
    (line : Nat) : Except Fault Unit :=
  if e.IsCondition then
    .ok ()
  else
    .error (.ofTypes .conditionExpected line)

/- An integer literal must fit into 32 bits. -/
def ofInteger
    (value : Int)
    (line : Nat) : Except Fault Expr :=
  if -2147483648 ≤ value ∧ value ≤ 2147483647 then
    .ok (.int value .int line)
  else
    .error (.ofTypes (.literalTooGreat value) line)

/- The bytes of a string, as signed characters. -/
def ofString
    (value : String)
    (line : Nat) : Expr :=
  let bytes := value.toUTF8.toList
  let elements := bytes.map fun b =>
    Expr.int (Int.bmod b.toNat 256) .char line
  .array elements (.array elements.length .char) line

/- Both sides of a logical operator must be conditions. -/
def joinOr
    (left right : Expr)
    (line : Nat) : Except Fault Expr := do
  left.requireCondition line
  right.requireCondition line
  return .or left right line

/- Both sides of a logical operator must be conditions. -/
def joinAnd
    (left right : Expr)
    (line : Nat) : Except Fault Expr := do
  left.requireCondition line
  right.requireCondition line
  return .and left right line

/-
  Numbers are compared with numbers; booleans may be
  compared for equality.
-/
def joinCompare
    (op : Comparison)
    (left right : Expr)
    (line : Nat) : Except Fault Expr :=
  if (op.IsEquality ∧ left.ty = .bool ∧ right.ty = .bool) ∨
      (left.ty.promote right.ty).isSome then
    .ok (.compare op left right line)
  else
    .error (.ofTypes (.notComparable left.ty right.ty) line)

/- Arithmetic has the greater type of its operands. -/
def joinArithmetic
    (op : Arithmetic)
    (left right : Expr)
    (line : Nat) : Except Fault Expr :=
  match left.ty.promote right.ty with
  | some t => .ok (.arithmetic op left right t line)
  | none =>
      .error
        (.ofTypes (.notArithmetic left.ty right.ty) line)

/- Two minus signs cancel; otherwise a number is needed. -/
def ofNegation
    (operand : Expr)
    (line : Nat) : Except Fault Expr :=
  match operand with
  | .negate inner _ _ => .ok inner
  | _ =>
      if operand.ty.IsNumeric then
        .ok (.negate operand operand.ty line)
      else
        .error (.ofTypes (.notNegatable operand.ty) line)

/- Two exclamation marks cancel. -/
def ofInversion
    (operand : Expr)
    (line : Nat) : Except Fault Expr :=
  match operand with
  | .not inner _ => .ok inner
  | _ => do
      operand.requireCondition line
      return .not operand line

/- Each argument must convert to its parameter's type. -/
def checkArguments :
    List Expr → List Ty → Except Fault Unit
| arg :: args, param :: params =>
    if arg.ty.ConvertsTo param then
      checkArguments args params
    else
      .error ⟨.noConversion arg.ty param, arg.line⟩
| _, _ => .ok ()

/- A call has one argument for each parameter. -/
def ofCall
    (callee : Prototype)
    (args : List Expr)
    (line : Nat) : Except Fault Expr := do
  let params := callee.paramTypes
  if params.length ≠ args.length then
    throw (.ofTypes
      (.argumentCount callee.name.name params.length
        args.length) line)
  checkArguments args params
  return .call callee.name callee.id args params
    callee.returnType line

/- The common type of elements; the first has type `t`. -/
def commonType :
    Ty → List Expr → Except Fault Ty
| t, [] => .ok t
| t, e :: rest =>
    match t.unify e.ty with
    | some u => commonType u rest
    | none =>
        .error (.ofTypes (.elementsDiffer t e.ty) e.line)

/- The elements of an array literal have a common type. -/
def ofElements
    (first : Expr)
    (rest : List Expr)
    (line : Nat) : Except Fault Expr := do
  let elements := first :: rest
  let t ← commonType first.ty rest
  return .array elements (.array elements.length t) line

/- The operators of a level, with the nodes they build. -/
abbrev Level :=
  Token → Option (Expr → Expr → Nat → Except Fault Expr)

/- Disjunction. -/
def orLevel : Level
| .symbol .or => some joinOr
| _ => none

/- Conjunction. -/
def andLevel : Level
| .symbol .and => some joinAnd
| _ => none

/- Equality and inequality. -/
def equalityLevel : Level
| .symbol .equal => some (joinCompare .equal)
| .symbol .notEqual => some (joinCompare .notEqual)
| _ => none

/- Order. -/
def orderLevel : Level
| .symbol .less => some (joinCompare .less)
| .symbol .lessEqual => some (joinCompare .lessEqual)
| .symbol .greater => some (joinCompare .greater)
| .symbol .greaterEqual => some (joinCompare .greaterEqual)
| _ => none

/- Sums. -/
def sumLevel : Level
| .symbol .plus => some (joinArithmetic .add)
| .symbol .minus => some (joinArithmetic .subtract)
| _ => none

/- Products. -/
def productLevel : Level
| .symbol .times => some (joinArithmetic .multiply)
| .symbol .divide => some (joinArithmetic .divide)
| _ => none

/- All levels, the one that binds least first. -/
def levels : List Level :=
  [orLevel, andLevel, equalityLevel, orderLevel, sumLevel,
    productLevel]

/- More operands of a level, joined from the left. -/
def operands
    (level : Level)
    (operand : Parse Expr) :
    Nat → Expr → Parse Expr
| 0, left => return left
| turns + 1, left => do
    let s ← get
    match level s.lookahead with
    | none => return left
    | some join =>
        Parse.advance
        let right ← operand
        let joined ← Parse.ofExcept (join left right s.line)
        operands level operand turns joined

/- One or more operands of a level. -/
def binary
    (level : Level)
    (operand : Parse Expr) : Parse Expr := do
  let first ← operand
  operands level operand (← get).left first

/- All levels above the unary operators. -/
def ladder (operand : Parse Expr) : Parse Expr :=
  levels.foldr binary operand

/-
  Unary operators before a primary expression.  A minus sign
  before a number belongs to the number.
-/
def unaryUpTo
    (primary : Parse Expr) :
    Nat → Parse Expr
| 0 => primary
| turns + 1 => do
    let s ← get
    match s.lookahead with
    | .symbol .minus =>
        Parse.advance
        match (← get).lookahead with
        | .integer value =>
            Parse.advance
            Parse.ofExcept (ofInteger (-value) s.line)
        | .decimal value =>
            Parse.advance
            return .float value.neg s.line
        | _ =>
            let operand ← unaryUpTo primary turns
            Parse.ofExcept (ofNegation operand s.line)
    | .symbol .not =>
        Parse.advance
        let operand ← unaryUpTo primary turns
        Parse.ofExcept (ofInversion operand s.line)
    | _ => primary

/- Any number of unary operators. -/
def unary (primary : Parse Expr) : Parse Expr := do
  unaryUpTo primary (← get).left

/-
  Brackets behind a place: an index into an array, or the
  name of a member of a record.
-/
def accessUpTo
    (expression : Parse Expr) :
    Nat → Place → Parse Place
| 0, place => return place
| turns + 1, place => do
    let s ← get
    if s.lookahead = .symbol .leftBracket then
      match place.ty with
      | .array _ element =>
          Parse.advance
          let index ← expression
          unless index.ty.IsIntegral do
            Parse.mistyped (.indexNotInteger index.ty)
              s.line
          Parse.expect (.symbol .rightBracket)
          accessUpTo expression turns
            (.element place index element)
      | .record _ record members =>
          Parse.advance
          let name ← Parse.identifier
          match findMember? members name with
          | some (position, t) =>
              Parse.expect (.symbol .rightBracket)
              accessUpTo expression turns
                (.member place position name t)
          | none =>
              throw ⟨.unknownMember record name, s.line⟩
      | t =>
          Parse.mistyped (.notIndexable place.root.name t)
            s.line
    else
      return place

/- Any number of brackets behind a variable. -/
def access
    (expression : Parse Expr)
    (root : Identifier) : Parse Place := do
  accessUpTo expression (← get).left (.var root)

/- The arguments of a call, behind its name. -/
def callArguments
    (expression : Parse Expr)
    (callee : Prototype)
    (line : Nat) : Parse Expr := do
  let args ←
    if ← Parse.accept (.symbol .colon) then
      Parse.separated expression
    else
      pure []
  Parse.expect (.symbol .rightBracket)
  Parse.ofExcept (ofCall callee args line)

/- An element of an array literal must be a constant. -/
def constant (expression : Parse Expr) : Parse Expr := do
  let e ← expression
  unless e.isConstant do
    Parse.mistyped .elementNotConstant e.line
  return e

/- An array literal, behind its opening bracket. -/
def arrayLiteral
    (expression : Parse Expr)
    (line : Nat) : Parse Expr := do
  if (← get).lookahead = .symbol .rightBracket then
    Parse.mistyped .emptyArray line
  let first ← constant expression
  let rest ← Parse.moreItems (constant expression)
    (← get).left
  Parse.expect (.symbol .rightBracket)
  Parse.ofExcept (ofElements first rest line)

/-
  A bracket opens a call when the name of a function
  follows, and an array literal otherwise.
-/
def bracketed
    (expression : Parse Expr)
    (line : Nat) : Parse Expr := do
  Parse.advance
  let s ← get
  let callee :=
    match s.lookahead with
    | .identifier name => s.scope.globals.prototype? name
    | _ => none
  match callee with
  | some callee =>
      Parse.advance
      callArguments expression callee line
  | none => arrayLiteral expression line

/-
  A name: a variable with the brackets behind it, or a call
  of a function without arguments.
-/
def named
    (expression : Parse Expr)
    (name : String)
    (line : Nat) : Parse Expr := do
  match (← get).scope.lookup name with
  | some (.var x) =>
      Parse.advance
      return .read (← access expression x) line
  | some (.func callee) =>
      Parse.advance
      Parse.ofExcept (ofCall callee [] line)
  | none => throw ⟨.undeclared name, line⟩

/- An expression in parentheses. -/
def grouped (expression : Parse Expr) : Parse Expr := do
  Parse.advance
  let e ← expression
  Parse.expect (.symbol .rightParen)
  return e

/- An expression without operators around it. -/
def primary (expression : Parse Expr) : Parse Expr := do
  let s ← get
  match s.lookahead with
  | .symbol .leftParen => grouped expression
  | .symbol .leftBracket => bracketed expression s.line
  | .identifier name => named expression name s.line
  | .integer value =>
      Parse.advance
      Parse.ofExcept (ofInteger value s.line)
  | .decimal value =>
      Parse.advance
      return .float value s.line
  | .boolean value =>
      Parse.advance
      return .boolean value s.line
  | .string value =>
      Parse.advance
      return ofString value s.line
  | _ => Parse.unexpected .expression

/- An expression nested at most to a given depth. -/
def nested : Nat → Parse Expr
| 0 => Parse.unexpected .expression
| depth + 1 => ladder (unary (primary (nested depth)))

/- An expression. -/
def parse : Parse Expr := do
  nested (← get).left

end Expr

end Bracketry
