import Bracketry.Double
import Bracketry.Ty

/-
  This file defines the tokens of the language, their
  spellings, the text by which messages name them, and what
  can go wrong while they are read.
-/

namespace Bracketry

/- Operators on numbers. -/
inductive Arithmetic where
| add
| subtract
| multiply
| divide
deriving DecidableEq, Repr

/- Comparisons of numbers. -/
inductive Comparison where
| less
| lessEqual
| equal
| notEqual
| greaterEqual
| greater
deriving DecidableEq, Repr

namespace Comparison

/- The comparisons that also accept two booleans. -/
def IsEquality : Comparison → Prop
| .equal => True
| .notEqual => True
| _ => False

instance (r : Comparison) : Decidable r.IsEquality := by
  unfold IsEquality
  split <;> infer_instance

end Comparison

/- Operators and punctuation. -/
inductive Symbol where
| plus
| minus
| times
| divide
| less
| lessEqual
| equal
| greaterEqual
| greater
| not
| notEqual
| assign
| and
| or
| leftBrace
| rightBrace
| leftParen
| rightParen
| leftBracket
| rightBracket
| colon
| semicolon
| comma
deriving DecidableEq, Repr

namespace Symbol

/- The characters of a symbol. -/
def spelling : Symbol → String
| .plus => "+"
| .minus => "-"
| .times => "*"
| .divide => "/"
| .less => "<"
| .lessEqual => "<="
| .equal => "=="
| .greaterEqual => ">="
| .greater => ">"
| .not => "!"
| .notEqual => "!="
| .assign => "="
| .and => "&&"
| .or => "||"
| .leftBrace => "\x7b"
| .rightBrace => "\x7d"
| .leftParen => "("
| .rightParen => ")"
| .leftBracket => "["
| .rightBracket => "]"
| .colon => ":"
| .semicolon => ";"
| .comma => ","

/- The symbol of two characters, if they make one. -/
def ofPair? : Char → Char → Option Symbol
| '<', '=' => some .lessEqual
| '>', '=' => some .greaterEqual
| '=', '=' => some .equal
| '!', '=' => some .notEqual
| '&', '&' => some .and
| '|', '|' => some .or
| _, _ => none

/- The symbol of one character, if it is one. -/
def ofChar? : Char → Option Symbol
| '+' => some .plus
| '-' => some .minus
| '*' => some .times
| '/' => some .divide
| '<' => some .less
| '>' => some .greater
| '!' => some .not
| '=' => some .assign
| '\x7b' => some .leftBrace
| '\x7d' => some .rightBrace
| '(' => some .leftParen
| ')' => some .rightParen
| '[' => some .leftBracket
| ']' => some .rightBracket
| ':' => some .colon
| ';' => some .semicolon
| ',' => some .comma
| _ => none

/- The operator on numbers that a symbol stands for. -/
def arithmetic? : Symbol → Option Arithmetic
| .plus => some .add
| .minus => some .subtract
| .times => some .multiply
| .divide => some .divide
| _ => none

/- The comparison that a symbol stands for. -/
def comparison? : Symbol → Option Comparison
| .less => some .less
| .lessEqual => some .lessEqual
| .equal => some .equal
| .notEqual => some .notEqual
| .greaterEqual => some .greaterEqual
| .greater => some .greater
| _ => none

end Symbol

/- Reserved words that shape statements and declarations. -/
inductive Keyword where
| ifWord
| elseWord
| whileWord
| doWord
| breakWord
| returnWord
| structWord
deriving DecidableEq, Repr

/- The letters of a keyword. -/
def Keyword.spelling : Keyword → String
| .ifWord => "if"
| .elseWord => "else"
| .whileWord => "while"
| .doWord => "do"
| .breakWord => "break"
| .returnWord => "return"
| .structWord => "struct"

/- The letters of a type keyword. -/
def Primitive.spelling : Primitive → String
| .void => "void"
| .bool => "bool"
| .char => "char"
| .int => "int"
| .float => "float"

/- The smallest meaningful pieces of a source text. -/
inductive Token where
| symbol (which : Symbol)
| keyword (which : Keyword)
| typeName (which : Primitive)
| boolean (value : Bool)
| identifier (name : String)
| integer (value : Nat)
| decimal (value : Double)
| string (value : String)
| endOfFile
deriving DecidableEq, Repr

namespace Token

/- A token as messages name it. -/
def text : Token → String
| .symbol s => "'" ++ s.spelling ++ "'"
| .keyword k => "'" ++ k.spelling ++ "'"
| .typeName p => "type " ++ (Ty.primitive p).text
| .boolean b => "boolean " ++ toString b
| .identifier name => "identifier '" ++ name ++ "'"
| .integer n => "integer " ++ toString n
| .decimal x => "decimal " ++ x.plainText
| .string s => "string \"" ++ s ++ "\""
| .endOfFile => "end of file"

/- The operator on numbers that a token stands for. -/
def arithmetic? : Token → Option Arithmetic
| .symbol s => s.arithmetic?
| _ => none

/- The comparison that a token stands for. -/
def comparison? : Token → Option Comparison
| .symbol s => s.comparison?
| _ => none

/- The words that are not identifiers, with their tokens. -/
def reserved : List (String × Token) :=
  [("true", .boolean true),
    ("false", .boolean false)] ++
  [Keyword.ifWord, .elseWord, .whileWord, .doWord,
    .breakWord, .returnWord, .structWord].map
      (fun k => (k.spelling, .keyword k)) ++
  [Primitive.char, .int, .float, .bool, .void].map
      (fun p => (p.spelling, .typeName p))

end Token

/- One token, or all of them. -/
inductive TokenPattern where
| any
| only (token : Token)
deriving DecidableEq, Repr

namespace TokenPattern

/- A pattern as messages name it. -/
def text : TokenPattern → String
| .any => "any token"
| .only t => t.text

/- The token of a pattern that stands for one. -/
def token? : TokenPattern → Option Token
| .any => none
| .only t => some t

/- Two patterns agree when some token fits both. -/
def Agrees : TokenPattern → TokenPattern → Prop
| .any, _ => True
| _, .any => True
| .only a, .only b => a = b

instance
    (p q : TokenPattern) :
    Decidable (p.Agrees q) := by
  unfold Agrees
  split <;> infer_instance

end TokenPattern

/- Why a piece of text is not a token. -/
inductive LexCause where
| openComment
| openString
| unknownEscape (c : Char)
| unrecognized (c : Char)
| largeInteger
deriving DecidableEq, Repr

/- The wording of each cause. -/
def LexCause.message : LexCause → String
| .openComment => "unterminated block comment"
| .openString => "unterminated string literal"
| .unknownEscape c =>
    "unknown escape sequence: \\" ++ c.toString
| .unrecognized c =>
    "unrecognized character '" ++ c.toString ++ "'"
| .largeInteger => "integer literal is too large"

/- A cause with the line it is reported on. -/
structure LexFault where
  cause : LexCause
  line : Nat
deriving DecidableEq, Repr

/- The whole message. -/
def LexFault.message (f : LexFault) : String :=
  f.cause.message ++ " near line " ++ toString f.line

end Bracketry
