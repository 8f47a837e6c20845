import Bracketry.Screen
import Bracketry.Token

/-
  This file colours a line of source text or of generated
  code.

  A line of source need not be well-formed: each line is
  read on its own, an open string or comment ends with it.
-/

namespace Bracketry

namespace Highlight

/- Characters of names, keywords and numbers. -/
def isWordChar (c : Char) : Bool :=
  Text.isAlphanumeric c || c == '_' || c == '.'

/- Whether a word starts with a digit. -/
def startsWithDigit : List Char → Bool
| c :: _ => c.isDigit
| [] => false

/- The look of a word that is not reserved. -/
def nameStyle
    (afterBracket : Bool)
    (word : List Char) : Style :=
  if startsWithDigit word then
    .colour Palette.literal
  else if afterBracket then
    .colour Palette.callee
  else
    .colour Palette.text

/-
  The look of a word.  The first word after an opening
  bracket is the name of a function, if it is not reserved.
-/
def wordStyle
    (afterBracket : Bool)
    (word : List Char) : Style :=
  match Token.reserved.lookup (String.ofList word) with
  | some (.typeName _) => .colour Palette.typeName
  | some (.keyword _) => .strong Palette.keyword
  | some (.boolean _) => .colour Palette.literal
  | _ => nameStyle afterBracket word

/- The look of a character that is not part of a word. -/
def markStyle (c : Char) : Style :=
  if "\x7b\x7d()[]:".toList.contains c then
    .colour Palette.delimiter
  else
    .colour Palette.text

/- A piece of text read backwards, if there is any. -/
def piece
    (style : Style) :
    List Char → List Span
| [] => []
| read => [⟨read.reverse, style⟩]

/-
  What is being read, with what was read of it, backwards: a
  word, or a string and whether its next character is
  escaped.
-/
inductive Mode where
| word (read : List Char)
| quoted (read : List Char) (escaped : Bool)

/- Whether a line goes on with a comment. -/
def opensComment : List Char → Bool
| '/' :: '/' :: _ => true
| '/' :: '*' :: _ => true
| _ => false

/-
  Whether the next word stands after an opening bracket,
  when a word and then a character between words was read.
-/
def bracketAfter
    (afterBracket : Bool)
    (word : List Char)
    (c : Char) : Bool :=
  if Text.isWhiteSpace c then
    afterBracket && word.isEmpty
  else
    c == '['

/-
  Colour the rest of a line.  A word that a comment or
  string touches keeps the screen's own colour.
-/
def sourceFrom :
    Bool → Mode → List Char → List Span
| afterBracket, .word read, [] =>
    piece (wordStyle afterBracket read.reverse) read
| _, .quoted read _, [] =>
    piece (.colour Palette.literal) read
| afterBracket, .quoted read escaped, c :: rest =>
    if c = '"' ∧ ¬ escaped then
      piece (.colour Palette.literal) (c :: read) ++
        sourceFrom afterBracket (.word []) rest
    else
      sourceFrom afterBracket
        (.quoted (c :: read) (c == '\\' && !escaped)) rest
| afterBracket, .word read, c :: rest =>
    if opensComment (c :: rest) then
      piece .plain read ++
        [⟨c :: rest, .colour Palette.muted⟩]
    else if c = '"' then
      piece .plain read ++
        sourceFrom afterBracket (.quoted [c] false) rest
    else if isWordChar c then
      sourceFrom afterBracket (.word (c :: read)) rest
    else
      piece (wordStyle afterBracket read.reverse) read ++
        ⟨[c], markStyle c⟩ ::
          sourceFrom (bracketAfter afterBracket read c)
            (.word []) rest

/- A line of source text, coloured. -/
def source (line : List Char) : List Span :=
  sourceFrom false (.word []) line

/- Words that name what an instruction does. -/
def operations : List String :=
  ["alloca", "load", "store", "getelementptr", "add", "sub",
    "mul", "sdiv", "fadd", "fsub", "fmul", "fdiv", "fneg",
    "icmp", "fcmp", "br", "ret", "call", "phi", "sitofp",
    "fptosi", "zext", "trunc", "unreachable", "type"]

/- Words that name a type. -/
def codeTypes : List String :=
  ["i1", "i8", "i32", "double", "void", "label"]

/- Words that are values. -/
def codeConstants : List String :=
  ["true", "false", "zeroinitializer"]

/- The look of a word by its first character. -/
def operandStyle : List Char → Style
| '@' :: _ => .colour Palette.callee
| '%' :: _ => .colour Palette.register
| '-' :: _ => .colour Palette.literal
| word =>
    if startsWithDigit word then
      .colour Palette.literal
    else
      .colour Palette.text

/- The look of a word of code. -/
def codeWordStyle (word : List Char) : Style :=
  let text := String.ofList word
  if text = "define" then
    .strong Palette.keyword
  else if codeTypes.contains text then
    .colour Palette.typeName
  else if codeConstants.contains text then
    .colour Palette.literal
  else if operations.contains text then
    .colour Palette.keyword
  else
    operandStyle word

/- Characters of words of code. -/
def isCodeWordChar (c : Char) : Bool :=
  Text.isAlphanumeric c || "%@._-".toList.contains c

/- Colour a line behind a word read backwards. -/
def codeFrom :
    List Char → List Char → List Span
| read, [] =>
    piece (codeWordStyle read.reverse) read
| read, c :: rest =>
    if isCodeWordChar c then
      codeFrom (c :: read) rest
    else
      piece (codeWordStyle read.reverse) read ++
        ⟨[c], .colour Palette.text⟩ :: codeFrom [] rest

/- Labels of blocks end in a colon and are not indented. -/
def isLabelLine (line : List Char) : Bool :=
  line.getLast? == some ':' && line.head? != some ' '

/- A line of code, coloured. -/
def code (line : List Char) : List Span :=
  if isLabelLine line then
    [⟨line, .strong Palette.label⟩]
  else
    codeFrom [] line

end Highlight

end Bracketry
