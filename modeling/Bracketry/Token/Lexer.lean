import Bracketry.Token

/-
  This file reads tokens off a text, one at a time.

  A lexer holds the characters not yet read, the mark
  reached and the words met so far.  White space and
  comments before a token are skipped.  A fault leaves the
  lexer where it was noticed, so that reading can go on
  behind it.
-/

namespace Bracketry

/- How many characters were read, and the line reached. -/
structure Mark where
  position : Nat
  line : Nat
deriving DecidableEq, Repr

namespace Mark

/- The mark before the first character. -/
def start : Mark :=
  ⟨0, 1⟩

/- The mark behind one more character. -/
def past
    (m : Mark)
    (c : Char) : Mark :=
  ⟨m.position + 1, if c = '\n' then m.line + 1 else m.line⟩

/- The mark behind several more characters. -/
def pastAll
    (m : Mark)
    (cs : List Char) : Mark :=
  cs.foldl past m

end Mark

/- What is being skipped before a token. -/
inductive Trivia where
| blank
| lineComment
| blockComment (opened : Nat)
deriving DecidableEq, Repr

/- White space of the language. -/
def isBlank (c : Char) : Bool :=
  c = ' ' || c = '\t' || c = '\r' || c = '\n'

/-
  Skip to the next token.  A block comment that never ends
  is a fault on the line where it was opened.
-/
def skipTrivia :
    Trivia → Mark → List Char →
      Option LexFault × Mark × List Char
| .blank, m, '/' :: '/' :: rest =>
    skipTrivia .lineComment (m.pastAll ['/', '/']) rest
| .blank, m, '/' :: '*' :: rest =>
    skipTrivia (.blockComment m.line) (m.pastAll ['/', '*'])
      rest
| .blank, m, c :: rest =>
    if isBlank c then
      skipTrivia .blank (m.past c) rest
    else
      (none, m, c :: rest)
| .lineComment, m, c :: rest =>
    if c = '\n' then
      skipTrivia .blank (m.past c) rest
    else
      skipTrivia .lineComment (m.past c) rest
| .blockComment _, m, '*' :: '/' :: rest =>
    skipTrivia .blank (m.pastAll ['*', '/']) rest
| .blockComment opened, m, c :: rest =>
    skipTrivia (.blockComment opened) (m.past c) rest
| .blockComment opened, m, [] =>
    (some ⟨.openComment, opened⟩, m, [])
| _, m, [] =>
    (none, m, [])

/- The outcome of reading a token, and where it ended. -/
structure Scan where
  outcome : Except LexFault Token
  mark : Mark
  rest : List Char

/- The number that a row of decimal digits stands for. -/
def digitsValue (digits : List Char) : Nat :=
  digits.foldl (fun n c => 10 * n + (c.toNat - '0'.toNat)) 0

/- The greatest integer literal. -/
def integerLimit : Nat :=
  Nat.pow 2 63 - 1

/- An integer literal must fit into 63 bits. -/
def scanInteger
    (m : Mark)
    (digits rest : List Char) : Scan :=
  let value := digitsValue digits
  if value ≤ integerLimit then
    ⟨.ok (.integer value), m, rest⟩
  else
    ⟨.error ⟨.largeInteger, m.line⟩, m, rest⟩

/-
  Read a number.  A point belongs to it only when a digit
  follows the point.
-/
def scanNumber
    (m : Mark)
    (cs : List Char) : Scan :=
  let whole := cs.takeWhile Char.isDigit
  let behind := cs.dropWhile Char.isDigit
  match behind with
  | '.' :: c :: rest =>
      if c.isDigit then
        let places := (c :: rest).takeWhile Char.isDigit
        let value :=
          Double.ofDecimal (digitsValue (whole ++ places))
            places.length
        ⟨.ok (.decimal value),
          (m.pastAll whole).pastAll ('.' :: places),
          (c :: rest).dropWhile Char.isDigit⟩
      else
        scanInteger (m.pastAll whole) whole behind
  | _ => scanInteger (m.pastAll whole) whole behind

/- The character that an escape stands for. -/
def unescape? : Char → Option Char
| 'n' => some '\n'
| 't' => some '\t'
| 'r' => some '\r'
| '\\' => some '\\'
| '"' => some '"'
| '0' => some '\x00'
| _ => none

/-
  Read a string behind its opening quote.  One that never
  ends is a fault on the line where it was opened; an
  unknown escape is a fault that leaves the escaped
  character unread.
-/
def scanString
    (opened : Nat) :
    List Char → Mark → List Char → Scan
| read, m, '"' :: rest =>
    ⟨.ok (.string (String.ofList read.reverse)),
      m.past '"', rest⟩
| _, m, ['\\'] =>
    ⟨.error ⟨.openString, opened⟩, m.past '\\', []⟩
| read, m, '\\' :: c :: rest =>
    match unescape? c with
    | some plain =>
        scanString opened (plain :: read)
          (m.pastAll ['\\', c]) rest
    | none =>
        ⟨.error ⟨.unknownEscape c, m.line⟩, m.past '\\',
          c :: rest⟩
| read, m, c :: rest =>
    scanString opened (c :: read) (m.past c) rest
| _, m, [] =>
    ⟨.error ⟨.openString, opened⟩, m, []⟩

/- Read a symbol of one character, if it is one. -/
def scanSingle
    (m : Mark)
    (c : Char)
    (rest : List Char) : Scan :=
  match Symbol.ofChar? c with
  | some s => ⟨.ok (.symbol s), m.past c, rest⟩
  | none =>
      ⟨.error ⟨.unrecognized c, (m.past c).line⟩,
        m.past c, rest⟩

/-
  Read a symbol that starts with a given character; two
  characters win over one.
-/
def scanSymbol
    (m : Mark)
    (c : Char)
    (rest : List Char) : Scan :=
  match rest with
  | d :: behind =>
      match Symbol.ofPair? c d with
      | some s =>
          ⟨.ok (.symbol s), m.pastAll [c, d], behind⟩
      | none => scanSingle m c rest
  | [] => scanSingle m c rest

/- The characters that may start a word. -/
def isWordStart (c : Char) : Bool :=
  c.isAlpha || c = '_'

/- The characters that may continue a word. -/
def isWordPart (c : Char) : Bool :=
  c.isAlphanum || c = '_'

/- A text being read. -/
structure Lexer where
  mark : Mark
  rest : List Char
  words : List (String × Token)
  failed : Bool

namespace Lexer

/- A lexer before the first character of a text. -/
def ofText (text : String) : Lexer :=
  ⟨.start, text.toList, Token.reserved, false⟩

/- The line reached. -/
def line (l : Lexer) : Nat :=
  l.mark.line

/- The number of characters read. -/
def position (l : Lexer) : Nat :=
  l.mark.position

/- The token of a word reserved or met before. -/
def word?
    (l : Lexer)
    (spelling : String) : Option Token :=
  l.words.lookup spelling

/- The number of reserved words and of words met. -/
def wordCount (l : Lexer) : Nat :=
  l.words.length

/- The token of a word, remembered if it is new. -/
def intern
    (l : Lexer)
    (spelling : String) : Token × Lexer :=
  match l.word? spelling with
  | some t => (t, l)
  | none =>
      let t := Token.identifier spelling
      (t, { l with words := l.words ++ [(spelling, t)] })

/- Read a word. -/
def scanWord
    (l : Lexer)
    (m : Mark)
    (cs : List Char) : Except LexFault Token × Lexer :=
  let letters := cs.takeWhile isWordPart
  let (t, known) := l.intern (String.ofList letters)
  (.ok t,
    { known with
      mark := m.pastAll letters
      rest := cs.dropWhile isWordPart })

/- Take over the outcome of reading a token. -/
def accept
    (l : Lexer)
    (s : Scan) : Except LexFault Token × Lexer :=
  (s.outcome, { l with mark := s.mark, rest := s.rest })

/- Read one token, or the end of the text. -/
def next (l : Lexer) : Except LexFault Token × Lexer :=
  match skipTrivia .blank l.mark l.rest with
  | (some fault, m, rest) =>
      l.accept ⟨.error fault, m, rest⟩
  | (none, m, []) => l.accept ⟨.ok .endOfFile, m, []⟩
  | (none, m, c :: rest) =>
      if c.isDigit then
        l.accept (scanNumber m (c :: rest))
      else if isWordStart c then
        l.scanWord m (c :: rest)
      else if c = '"' then
        l.accept (scanString m.line [] (m.past c) rest)
      else
        l.accept (scanSymbol m c rest)

/-
  Whether a token remains.  What is skipped to find out
  stays skipped; a comment that never ends counts as a token
  and is left to be reported.
-/
def hasToken (l : Lexer) : Bool × Lexer :=
  match skipTrivia .blank l.mark l.rest with
  | (some _, _, _) => (true, l)
  | (none, m, rest) =>
      (!rest.isEmpty, { l with mark := m, rest := rest })

/-
  The next token of an iteration, which ends before the end
  of the text and behind the first fault.
-/
def iterate
    (l : Lexer) : Option (Except LexFault Token) × Lexer :=
  if l.failed then
    (none, l)
  else
    match l.next with
    | (.ok .endOfFile, after) => (none, after)
    | (.ok t, after) => (some (.ok t), after)
    | (.error fault, after) =>
        (some (.error fault), { after with failed := true })

end Lexer

/- A token, with the mark reached behind it. -/
structure Lexeme where
  token : Token
  mark : Mark
deriving DecidableEq, Repr

/- The line reached behind the token. -/
def Lexeme.line (l : Lexeme) : Nat :=
  l.mark.line

/-
  All tokens of a text up to its end or the first fault, and
  the lexer that is left.
-/
structure TokenStream where
  lexemes : List Lexeme
  fault? : Option LexFault
  final : Lexer

namespace TokenStream

/-
  Read at most a number of tokens.  Each token takes at
  least one character, so the number of characters and one
  more is always enough to come to an end.
-/
def read : Nat → Lexer → TokenStream
| 0, l => ⟨[], none, l⟩
| count + 1, l =>
    match l.next with
    | (.error fault, after) => ⟨[], some fault, after⟩
    | (.ok .endOfFile, after) => ⟨[], none, after⟩
    | (.ok t, after) =>
        let behind := read count after
        { behind with
          lexemes := ⟨t, after.mark⟩ :: behind.lexemes }

/- All tokens of a text. -/
def ofText (text : String) : TokenStream :=
  let lexer := Lexer.ofText text
  read (lexer.rest.length + 1) lexer

end TokenStream

end Bracketry
