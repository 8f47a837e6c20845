import Bracketry.Token

/-
  This file defines everything that can be wrong with a
  source text, by cause, and the wording of each cause.

  The first fault ends the work on a text.
-/

namespace Bracketry

/- What the grammar allows at a point. -/
inductive Expectation where
| token (token : Token)
| expression
| identifier
| typeName
| declaration
deriving DecidableEq, Repr

/- An expectation as messages name it. -/
def Expectation.text : Expectation → String
| .token t => t.text
| .expression => "expression"
| .identifier => "identifier"
| .typeName => "type"
| .declaration => "declaration"

/- Ways in which the types of a program do not fit. -/
inductive TypeProblem where
| outsideFunction (name : String)
| voidVariable (name : String)
| voidParameter (name : String)
| voidDefault
| unsizedField (name : String)
| unsizedVariable (name : String)
| lengthTooGreat (length : Nat)
| lengthNotPositive
| arrayOfVoid
| mismatch (value declared : Ty)
| missingValue (function : String)
| unwantedValue (function : String)
| conditionExpected
| callExpected
| notNegatable (operand : Ty)
| notComparable (left right : Ty)
| notArithmetic (left right : Ty)
| argumentCount (function : String) (wanted given : Nat)
| emptyArray
| elementNotConstant
| elementsDiffer (left right : Ty)
| indexNotInteger (index : Ty)
| notIndexable (root : String) (ty : Ty)
| literalTooGreat (value : Int)
deriving DecidableEq, Repr

/- The greatest length of an array. -/
def lengthLimit : Nat :=
  Nat.pow 2 31 - 1

/- The wording of each problem. -/
def TypeProblem.message : TypeProblem → String
| .outsideFunction x =>
    "variable '" ++ x ++ "' declared outside a function"
| .voidVariable x =>
    "variable '" ++ x ++ "' declared with type void"
| .voidParameter x =>
    "parameter '" ++ x ++ "' declared with type void"
| .voidDefault =>
    "variable declared with type void"
| .unsizedField x =>
    "array '" ++ x ++ "' needs an explicit length"
| .unsizedVariable x =>
    "array '" ++ x ++ "' needs a length or an initializer"
| .lengthTooGreat n =>
    "array length " ++ toString n ++ " exceeds " ++
      toString lengthLimit
| .lengthNotPositive =>
    "array length must be positive"
| .arrayOfVoid =>
    "array of void"
| .mismatch value declared =>
    "value of type " ++ value.text ++
      " does not match declared type " ++ declared.text
| .missingValue f =>
    "non-void function '" ++ f ++ "' must return a value"
| .unwantedValue f =>
    "returning a value from void function '" ++ f ++ "'"
| .conditionExpected =>
    "expected expression with boolean result"
| .callExpected =>
    "expression statement must be a call"
| .notNegatable t =>
    "cannot negate a value of type " ++ t.text
| .notComparable a b =>
    "cannot compare " ++ a.text ++ " with " ++ b.text
| .notArithmetic a b =>
    "arithmetic on " ++ a.text ++ " and " ++ b.text
| .argumentCount f wanted given =>
    "function '" ++ f ++ "' expects " ++ toString wanted ++
      " argument(s) but " ++ toString given ++ " were given"
| .emptyArray =>
    "empty array literal"
| .elementNotConstant =>
    "array literal elements must be constants"
| .elementsDiffer a b =>
    "array literal mixes elements of type " ++ a.text ++
      " and " ++ b.text
| .indexNotInteger t =>
    "array index must be an integer, not " ++ t.text
| .notIndexable root t =>
    "'" ++ root ++ "' of type " ++ t.text ++
      " is neither an array nor a struct"
| .literalTooGreat n =>
    "integer literal " ++ toString n ++
      " does not fit in int"

/- The five kinds of faults. -/
inductive Category where
| lexical
| syntactic
| nameResolution
| typing
| definition
deriving DecidableEq, Repr

/- The name of a kind. -/
def Category.name : Category → String
| .lexical => "Lexical"
| .syntactic => "Syntax"
| .nameResolution => "NameResolution"
| .typing => "Type"
| .definition => "Definition"

/- Why a text is not a program. -/
inductive Cause where
| lexical (cause : LexCause)
| unexpected (expected : Expectation) (found : Token)
| undeclared (name : String)
| redeclared (name : String)
| unknownType (name : String)
| unknownMember (record member : String)
| mistyped (problem : TypeProblem)
| noConversion (source target : Ty)
| misplacedBreak
| conflicting (function : String)
| redefined (function : String)
| unimplemented (function : String)
deriving DecidableEq, Repr

/- The kind that a cause belongs to. -/
def Cause.category : Cause → Category
| .lexical _ => .lexical
| .unexpected _ _ => .syntactic
| .misplacedBreak => .syntactic
| .undeclared _ => .nameResolution
| .redeclared _ => .nameResolution
| .unknownType _ => .nameResolution
| .unknownMember _ _ => .typing
| .mistyped _ => .typing
| .noConversion _ _ => .typing
| .conflicting _ => .definition
| .redefined _ => .definition
| .unimplemented _ => .definition

/- A cause with the line it is reported on. -/
structure Fault where
  cause : Cause
  line : Nat
deriving DecidableEq, Repr

namespace Fault

/- The kind that a fault belongs to. -/
def category (f : Fault) : Category :=
  f.cause.category

/- The whole message. -/
def message (f : Fault) : String :=
  let near := " near line " ++ toString f.line
  match f.cause with
  | .lexical cause =>
      cause.message ++ near
  | .unexpected expected found =>
      "expected " ++ expected.text ++ " instead of " ++
        found.text ++ near
  | .undeclared x =>
      "use of undeclared identifier '" ++ x ++ "'" ++ near
  | .redeclared x =>
      "redeclaration of '" ++ x ++ "'" ++ near
  | .unknownType x =>
      "unknown type '" ++ x ++ "'" ++ near
  | .unknownMember record member =>
      "struct '" ++ record ++ "' has no member '" ++
        member ++ "'" ++ near
  | .mistyped problem =>
      problem.message ++ near
  | .noConversion source target =>
      "cannot convert " ++ source.text ++ " to " ++
        target.text ++ near
  | .misplacedBreak =>
      "'break' outside of a loop" ++ near
  | .conflicting f =>
      "conflicting declaration of function '" ++ f ++
        "'" ++ near
  | .redefined f =>
      "redefinition of function '" ++ f ++ "'" ++ near
  | .unimplemented f =>
      "function '" ++ f ++ "' declared" ++ near ++
        " is never implemented"

/- A fault of types. -/
def ofTypes
    (problem : TypeProblem)
    (line : Nat) : Fault :=
  ⟨.mistyped problem, line⟩

/- A fault met while tokens were read. -/
def ofLexFault (f : LexFault) : Fault :=
  ⟨.lexical f.cause, f.line⟩

end Fault

end Bracketry
