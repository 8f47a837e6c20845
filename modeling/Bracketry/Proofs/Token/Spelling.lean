import Bracketry.Token.Lexer
import Mathlib.Data.Nat.Digits.Defs

/-
  This file shows that reading tokens undoes writing them.

  A token is written by its characters, in one of several
  ways if it is a number or a string.  Between two tokens
  stands a gap of white space and closed comments, which
  starts with white space.  From such a text exactly its
  tokens are read, and then its end.  A number that is too
  large is read as a fault; reading goes on behind it.

  Main declarations:
    * `Lexer.Knows` and `Lexer.nexts`
    * `Lexer.Knows.next_of_spells` and `Lexer.nexts_of_laid`
-/

namespace Bracketry

variable {gap : List Char} {c : Char} {word : String}
variable (m : Mark)

------------------------------------------------------------
-- Gaps
------------------------------------------------------------

/- White space, and comments that are closed. -/
inductive Gap : List Char → Prop
| nil :
    Gap []
| blank {c : Char} {rest : List Char}
    (hBlank : c ∈ [' ', '\t', '\r', '\n'])
    (hRest : Gap rest) :
    Gap (c :: rest)
| lineComment {body rest : List Char}
    (hBody : '\n' ∉ body)
    (hRest : Gap rest) :
    Gap ('/' :: '/' :: (body ++ '\n' :: rest))
| blockComment {body rest : List Char}
    (hBody : ¬ ['*', '/'] <:+: body)
    (hRest : Gap rest) :
    Gap ('/' :: '*' :: (body ++ '*' :: '/' :: rest))

/- The text ends here, or goes on with white space. -/
def Stops (text : List Char) : Prop :=
  text = [] ∨ ∃ c rest, text = c :: rest ∧
    c ∈ [' ', '\t', '\r', '\n']

/- Text that belongs together is taken as a whole. -/
theorem Stops.span_append
    {more front : List Char}
    {p : Char → Bool}
    (hStops : Stops more)
    (hBlank : [' ', '\t', '\r', '\n'].any p = false)
    (hFront : ∀ c ∈ front, p c = true) :
    (front ++ more).takeWhile p = front ∧
      (front ++ more).dropWhile p = more := by
  rw [List.takeWhile_append_of_pos hFront,
    List.dropWhile_append_of_pos hFront]
  rcases hStops with rfl | ⟨c, rest, rfl, hMem⟩
  · simp
  · have hNot : ¬ p c = true :=
      List.any_eq_false.mp hBlank c hMem
    rw [List.takeWhile_cons_of_neg hNot,
      List.dropWhile_cons_of_neg hNot, List.append_nil]
    exact ⟨rfl, rfl⟩

theorem isBlank_iff
    (c : Char) :
    isBlank c = true ↔ c ∈ [' ', '\t', '\r', '\n'] := by
  simp [isBlank, or_assoc]

@[simp] theorem Mark.pastAll_nil :
    m.pastAll [] = m := rfl

@[simp] theorem Mark.pastAll_cons
    (c : Char)
    (cs : List Char) :
    m.pastAll (c :: cs) = (m.past c).pastAll cs := rfl

@[simp] theorem Mark.pastAll_append
    (front back : List Char) :
    m.pastAll (front ++ back) =
      (m.pastAll front).pastAll back :=
  List.foldl_append

theorem skipTrivia_lineComment
    {body : List Char}
    (rest : List Char)
    (hBody : '\n' ∉ body) :
    skipTrivia .lineComment m (body ++ '\n' :: rest) =
      skipTrivia .blank (m.pastAll (body ++ ['\n']))
        rest := by
  induction body generalizing m with
  | nil => simp [skipTrivia]
  | cons c body ih =>
      rw [List.mem_cons, not_or] at hBody
      rw [List.cons_append, skipTrivia,
        if_neg (Ne.symm hBody.1), ih _ hBody.2]
      rfl

theorem skipTrivia_blockComment
    (opened : Nat)
    (m : Mark)
    {body : List Char}
    (rest : List Char)
    (hBody : ¬ ['*', '/'] <:+: body) :
    skipTrivia (.blockComment opened) m
      (body ++ '*' :: '/' :: rest) =
      skipTrivia .blank (m.pastAll (body ++ ['*', '/']))
        rest := by
  induction body generalizing m with
  | nil => simp [skipTrivia]
  | cons c body ih =>
      -- the first star and slash in a row are those behind
      -- the body
      have hNotYet :
          ∀ behind, c = '*' →
            body ++ '*' :: '/' :: rest = '/' :: behind →
              False := by
        rintro behind rfl hEq
        cases body with
        | nil => cases hEq
        | cons d body =>
            cases hEq
            exact hBody ⟨[], body, rfl⟩
      have hInner : ¬ ['*', '/'] <:+: body :=
        fun hInfix =>
          hBody (hInfix.trans (List.infix_cons_iff.mpr
          (.inr (List.infix_refl body))))
      rw [List.cons_append, skipTrivia, ih _ hInner]
      · rfl
      · exact hNotYet

/- A gap is skipped as a whole. -/
theorem Gap.skipTrivia_append
    (hGap : Gap gap)
    (m : Mark)
    (rest : List Char) :
    skipTrivia .blank m (gap ++ rest) =
      skipTrivia .blank (m.pastAll gap) rest := by
  induction hGap generalizing m with
  | nil => rfl
  | @blank c gap hBlank _ ih =>
      have hSlash : c ≠ '/' := by
        rintro rfl
        simp at hBlank
      rw [List.cons_append, skipTrivia,
        if_pos ((isBlank_iff c).mpr hBlank), ih]
      · rfl
      · exact fun _ hEq => absurd hEq hSlash
      · exact fun _ hEq => absurd hEq hSlash
  | @lineComment body gap hBody _ ih =>
      rw [List.cons_append, List.cons_append,
        List.append_assoc, List.cons_append, skipTrivia,
          skipTrivia_lineComment _ _ hBody, ih]
      simp
  | @blockComment body gap hBody _ ih =>
      rw [List.cons_append, List.cons_append,
        List.append_assoc, List.cons_append,
          List.cons_append, skipTrivia,
        skipTrivia_blockComment _ _ _ hBody, ih]
      simp

/- Nothing is skipped where no trivia starts. -/
theorem skipTrivia_start
    {rest : List Char}
    (hBlank : c ∉ [' ', '\t', '\r', '\n'])
    (hLine : ∀ behind, c = '/' → rest = '/' :: behind →
      False)
    (hBlock : ∀ behind, c = '/' → rest = '*' :: behind →
      False) :
    skipTrivia .blank m (c :: rest) =
      (none, m, c :: rest) := by
  rw [skipTrivia, if_neg (mt (isBlank_iff c).mp hBlank)]
  · exact hLine
  · exact hBlock

/- The letter that stands for an escaped character. -/
def escapeLetter? : Char → Option Char
| '\n' => some 'n'
| '\t' => some 't'
| '\r' => some 'r'
| '\\' => some '\\'
| '"' => some '"'
| '\x00' => some '0'
| _ => none

/-
  Characters, and how they are written between quotes: as
  they are, or by an escape.
-/
inductive Quoted : List Char → List Char → Prop
| nil :
    Quoted [] []
| raw {c : Char} {chars body : List Char}
    (hQuote : c ≠ '"')
    (hBackslash : c ≠ '\\')
    (hRest : Quoted chars body) :
    Quoted (c :: chars) (c :: body)
| escaped {c letter : Char} {chars body : List Char}
    (hLetter : escapeLetter? c = some letter)
    (hRest : Quoted chars body) :
    Quoted (c :: chars) ('\\' :: letter :: body)

theorem unescape?_of_letter
    {c letter : Char}
    (hLetter : escapeLetter? c = some letter) :
    unescape? letter = some c := by
  unfold escapeLetter? at hLetter
  split at hLetter <;> cases hLetter <;> rfl

/- What is quoted is read as its characters. -/
theorem Quoted.scanString_append
    {chars body : List Char}
    (hQuoted : Quoted chars body)
    (opened : Nat)
    (read : List Char)
    (m : Mark)
    (rest : List Char) :
    scanString opened read m (body ++ rest) =
      scanString opened (chars.reverse ++ read)
        (m.pastAll body) rest := by
  induction hQuoted generalizing read m with
  | nil => rfl
  | @raw c chars body hQuote hBackslash _ ih =>
      rw [List.cons_append, scanString, ih]
      · simp
      · exact hQuote
      · exact fun hEq => absurd hEq hBackslash
      · exact fun _ _ hEq => absurd hEq hBackslash
  | @escaped c letter chars body hLetter _ ih =>
      rw [List.cons_append, List.cons_append, scanString,
        unescape?_of_letter hLetter]
      change scanString opened (c :: read) _ _ = _
      rw [ih]
      simp

/- The number of decimal digits, last digit first. -/
def decimalValue (digits : List Char) : Nat :=
  Nat.ofDigits 10
    (digits.map fun c => c.toNat - '0'.toNat).reverse

theorem digitsValue_eq
    (digits : List Char) :
    digitsValue digits = decimalValue digits := by
  rw [decimalValue, Nat.ofDigits_eq_foldr,
    List.foldr_reverse, List.foldl_map, digitsValue]
  congr 1
  funext n c
  exact Nat.add_comm _ _

/- The words that cannot be names. -/
def IsReserved (word : String) : Prop :=
  (∃ k : Keyword, word = k.spelling) ∨
    (∃ p : Primitive, word = p.spelling) ∨
      ∃ b : Bool, word = toString b

/-
  What some characters are read as: a token, or what is
  wrong with them.
-/
inductive Spells : List Char → Except LexCause Token → Prop
| symbol (s : Symbol) :
    Spells s.spelling.toList (.ok (.symbol s))
| keyword (k : Keyword) :
    Spells k.spelling.toList (.ok (.keyword k))
| typeName (p : Primitive) :
    Spells p.spelling.toList (.ok (.typeName p))
| boolean (b : Bool) :
    Spells (toString b).toList (.ok (.boolean b))
| identifier {c : Char} {rest : List Char}
    (hFirst : c.isAlpha = true ∨ c = '_')
    (hRest : ∀ d ∈ rest, d.isAlphanum = true ∨ d = '_')
    (hFree : ¬ IsReserved (String.ofList (c :: rest))) :
    Spells (c :: rest)
      (.ok (.identifier (String.ofList (c :: rest))))
| integer {digits : List Char}
    (hSome : digits ≠ [])
    (hDigits : ∀ c ∈ digits, c.isDigit = true)
    (hFits : decimalValue digits ≤ 9223372036854775807) :
    Spells digits (.ok (.integer (decimalValue digits)))
| large {digits : List Char}
    (hSome : digits ≠ [])
    (hDigits : ∀ c ∈ digits, c.isDigit = true)
    (hLarge : 9223372036854775807 < decimalValue digits) :
    Spells digits (.error .largeInteger)
| string {value : String} {body : List Char}
    (hQuoted : Quoted value.toList body) :
    Spells ('"' :: (body ++ ['"'])) (.ok (.string value))

/- The token that a word is read as. -/
def Token.ofWord (word : String) : Token :=
  (reserved.lookup word).getD (.identifier word)

theorem Token.lookup_of_free
    (hFree : ¬ IsReserved word) :
    reserved.lookup word = none := by
  rw [List.lookup_eq_none_iff]
  intro entry hMem
  rw [bne_iff_ne]
  rintro rfl
  apply hFree
  rcases List.mem_append.mp hMem with hFront | hType
  · rcases List.mem_append.mp hFront with hBool | hKeyword
    · simp only [List.mem_cons, List.not_mem_nil, or_false]
        at hBool
      rcases hBool with rfl | rfl
      · exact .inr (.inr ⟨true, rfl⟩)
      · exact .inr (.inr ⟨false, rfl⟩)
    · rcases List.mem_map.mp hKeyword with ⟨k, -, rfl⟩
      exact .inl ⟨k, rfl⟩
  · rcases List.mem_map.mp hType with ⟨p, -, rfl⟩
    exact .inr (.inl ⟨p, rfl⟩)

theorem Token.ofWord_of_free
    (hFree : ¬ IsReserved word) :
    ofWord word = .identifier word := by
  rw [ofWord, lookup_of_free hFree]
  rfl

namespace Lexer

variable {gap more : List Char}

/- A word counts as what it is, met before or not. -/
def Knows (l : Lexer) : Prop :=
  ∀ word, (l.word? word).getD (.identifier word) =
    Token.ofWord word

theorem knows_ofText
    (text : String) :
    (ofText text).Knows :=
  fun _ => rfl

variable {l : Lexer}

theorem Knows.intern
    (hKnows : l.Knows)
    (word : String) :
    (l.intern word).1 = Token.ofWord word ∧
      (l.intern word).2.Knows := by
  have hToken := hKnows word
  unfold Lexer.intern
  cases hWord : l.word? word with
  | some t =>
      rw [hWord] at hToken
      exact ⟨hToken, hKnows⟩
  | none =>
      rw [hWord] at hToken
      refine ⟨hToken, ?_⟩
      intro other
      have hOther := hKnows other
      change ((l.words ++
        [(word, Token.identifier word)]).lookup other).getD
        (.identifier other) = _
      rw [List.lookup_append]
      change ((l.word? other).or _).getD _ = _
      cases hMet : l.word? other with
      | some t =>
          rw [hMet] at hOther
          exact hOther
      | none =>
          rw [hMet] at hOther
          by_cases hSame : other = word
          · subst hSame
            simpa using hToken
          · have hNe : (other == word) = false :=
              beq_false_of_ne hSame
            rw [List.lookup_cons, hNe]
            exact hOther

------------------------------------------------------------
-- One Token
------------------------------------------------------------

/- A token is read behind a gap, by its first character. -/
theorem next_of_start
    {gap front more : List Char}
    (hGap : Gap gap)
    (hRest : l.rest = gap ++ (c :: front ++ more))
    (hBlank : c ∉ [' ', '\t', '\r', '\n'])
    (hLine : ∀ behind,
      c = '/' → front ++ more = '/' :: behind → False)
    (hBlock : ∀ behind,
      c = '/' → front ++ more = '*' :: behind → False) :
    l.next =
      let m := l.mark.pastAll gap
      if c.isDigit then
        l.accept (scanNumber m (c :: front ++ more))
      else if isWordStart c then
        l.scanWord m (c :: front ++ more)
      else if c = '"' then
        l.accept
          (scanString m.line [] (m.past c) (front ++ more))
      else
        l.accept (scanSymbol m c (front ++ more)) := by
  rw [next, hRest, hGap.skipTrivia_append, List.cons_append,
    skipTrivia_start _ hBlank hLine hBlock]

/-
  What is known of a token that was read: how it came out,
  the text behind it, and that all words are still known.
-/
structure Took
    (out : Except LexFault Token × Lexer)
    (item : Except LexCause Token)
    (rest : List Char) : Prop where
  outcome : out.1.mapError LexFault.cause = item
  rest : out.2.rest = rest
  knows : out.2.Knows

theorem Knows.next_digits
    {gap digits more : List Char}
    (hKnows : l.Knows)
    (hGap : Gap gap)
    (hStops : Stops more)
    (hRest : l.rest = gap ++ (digits ++ more))
    (hSome : digits ≠ [])
    (hDigits : ∀ c ∈ digits, c.isDigit = true) :
    Took l.next
      (if decimalValue digits ≤ 9223372036854775807 then
        .ok (.integer (decimalValue digits))
      else
        .error .largeInteger) more := by
  rcases List.exists_cons_of_ne_nil hSome with
    ⟨c, rest, rfl⟩
  have hFirst : c.isDigit = true :=
    hDigits c List.mem_cons_self
  have hBlank : c ∉ [' ', '\t', '\r', '\n'] := by
    intro hMem
    simp only [List.mem_cons, List.not_mem_nil, or_false]
      at hMem
    rcases hMem with rfl | rfl | rfl | rfl <;> cases hFirst
  have hSlash : c ≠ '/' := by
    rintro rfl
    cases hFirst
  have hSpan :=
    hStops.span_append (p := Char.isDigit) rfl hDigits
  have hNumber :
      scanNumber (l.mark.pastAll gap) (c :: rest ++ more) =
        scanInteger
          ((l.mark.pastAll gap).pastAll (c :: rest))
          (c :: rest) more := by
    unfold scanNumber
    rw [hSpan.1, hSpan.2]
    rcases hStops with rfl | ⟨d, behind, rfl, hMem⟩
    · rfl
    · simp only [List.mem_cons, List.not_mem_nil, or_false]
        at hMem
      rcases hMem with rfl | rfl | rfl | rfl <;> rfl
  rw [next_of_start hGap hRest hBlank
    (fun _ hEq => absurd hEq hSlash)
      (fun _ hEq => absurd hEq hSlash)]
  simp only [hFirst, if_true]
  rw [hNumber, scanInteger, digitsValue_eq, integerLimit]
  by_cases hFits : decimalValue (c :: rest) ≤
    9223372036854775807
  · rw [if_pos hFits, if_pos hFits]
    exact ⟨rfl, rfl, hKnows⟩
  · rw [if_neg hFits, if_neg hFits]
    exact ⟨rfl, rfl, hKnows⟩

theorem isDigit_of_isWordStart
    (hStart : isWordStart c = true) :
    c.isDigit = false := by
  rw [isWordStart, Bool.or_eq_true, decide_eq_true_eq]
    at hStart
  rcases hStart with hAlpha | rfl
  · -- letters come behind all digits
    have hBound : 65 ≤ c.val.toNat := by
      rcases Bool.or_eq_true_iff.mp hAlpha with
        hUpper | hLower
      · exact (of_decide_eq_true hUpper).1
      · have hLow : 97 ≤ c.val.toNat :=
          of_decide_eq_true
            (Bool.and_eq_true_iff.mp hLower).1
        exact Nat.le_trans (by decide) hLow
    refine Bool.eq_false_iff.mpr fun hDigit => ?_
    have hHigh : c.val.toNat ≤ 57 :=
      of_decide_eq_true (Bool.and_eq_true_iff.mp hDigit).2
    omega
  · rfl

theorem Knows.next_word
    (hKnows : l.Knows)
    (hGap : Gap gap)
    (hStops : Stops more)
    (hRest : l.rest = gap ++ (word.toList ++ more))
    (hFirst : word.toList.head?.any isWordStart = true)
    (hParts : word.toList.all isWordPart = true) :
    Took l.next (.ok (Token.ofWord word)) more := by
  cases hWord : word.toList with
  | nil => simp [hWord] at hFirst
  | cons c rest =>
      rw [hWord] at hFirst hParts hRest
      have hStart : isWordStart c = true := hFirst
      have hDigit : c.isDigit = false :=
        isDigit_of_isWordStart hStart
      have hBlank : c ∉ [' ', '\t', '\r', '\n'] := by
        intro hMem
        simp only [List.mem_cons, List.not_mem_nil,
          or_false] at hMem
        rcases hMem with rfl | rfl | rfl | rfl <;>
          cases hStart
      have hSlash : c ≠ '/' := by
        rintro rfl
        cases hStart
      have hSpan := hStops.span_append (p := isWordPart) rfl
        (List.all_eq_true.mp hParts)
      rw [next_of_start hGap hRest hBlank
        (fun _ hEq => absurd hEq hSlash)
          (fun _ hEq => absurd hEq hSlash)]
      simp only [hDigit, hStart, if_true,
        Bool.false_eq_true, if_false]
      rw [scanWord, hSpan.1, hSpan.2, ← hWord,
        String.ofList_toList]
      rcases hKnows.intern word with ⟨hToken, hAfter⟩
      exact ⟨congrArg Except.ok hToken, rfl, hAfter⟩

theorem Knows.next_string
    {gap body more : List Char}
    {value : String}
    (hKnows : l.Knows)
    (hGap : Gap gap)
    (hRest :
      l.rest = gap ++ ('"' :: (body ++ ['"']) ++ more))
    (hQuoted : Quoted value.toList body) :
    Took l.next (.ok (.string value)) more := by
  rw [next_of_start hGap hRest (by decide)
    (fun _ hEq => absurd hEq (by decide))
    (fun _ hEq => absurd hEq (by decide))]
  change Took (l.accept (scanString _ [] _ _)) _ _
  rw [List.append_assoc, List.singleton_append,
    hQuoted.scanString_append, scanString, List.append_nil,
    List.reverse_reverse, String.ofList_toList]
  exact ⟨rfl, rfl, hKnows⟩

/-
  A symbol is a character that makes no symbol with a blank,
  or two characters.
-/
theorem spelling_cases
    (s : Symbol) :
    ∃ c front, s.spelling.toList = c :: front ∧
      c ∉ [' ', '\t', '\r', '\n'] ∧ c ≠ '"' ∧
      c.isDigit = false ∧ isWordStart c = false ∧
      (front = [] ∧ Symbol.ofChar? c = some s ∧
          [' ', '\t', '\r', '\n'].all
            (fun d => (Symbol.ofPair? c d).isNone) ∨
        ∃ d, front = [d] ∧ Symbol.ofPair? c d = some s ∧
          c ≠ '/') := by
  cases s with
  | lessEqual | equal | greaterEqual | notEqual |
      and | or =>
        exact ⟨_, _, rfl, by decide, by decide, rfl, rfl,
          .inr ⟨_, rfl, rfl, by decide⟩⟩
  | _ =>
      exact ⟨_, _, rfl, by decide, by decide, rfl, rfl,
        .inl ⟨rfl, rfl, rfl⟩⟩

theorem Knows.next_symbol
    (s : Symbol)
    (hKnows : l.Knows)
    (hGap : Gap gap)
    (hStops : Stops more)
    (hRest : l.rest = gap ++ (s.spelling.toList ++ more)) :
    Took l.next (.ok (.symbol s)) more := by
  rcases spelling_cases s with
    ⟨c, front, hText, hBlank, hQuote, hDigit,
      hStart, hCases⟩
  rw [hText] at hRest
  rcases hCases with
    ⟨rfl, hChar, hNone⟩ | ⟨d, rfl, hPair, hSlash⟩
  · -- a slash starts no comment where a blank follows
    have hComment :
        ∀ d, d ∉ [' ', '\t', '\r', '\n'] →
          ∀ behind, c = '/' → [] ++ more = d :: behind →
            False := by
      rintro d hOther behind - rfl
      rcases hStops with hEq | ⟨e, rest, hEq, hMem⟩
      · cases hEq
      · cases hEq
        exact hOther hMem
    have hScan :
        ∀ m, scanSymbol m c ([] ++ more) =
          ⟨.ok (.symbol s), m.past c, more⟩ := by
      intro m
      rcases hStops with rfl | ⟨e, rest, rfl, hMem⟩
      · rw [List.append_nil, scanSymbol, scanSingle, hChar]
      · have hPair : Symbol.ofPair? c e = none :=
          Option.isNone_iff_eq_none.mp
            (List.all_eq_true.mp hNone e hMem)
        rw [List.nil_append, scanSymbol, hPair,
          scanSingle, hChar]
    rw [next_of_start hGap hRest hBlank
      (hComment '/' (by decide)) (hComment '*' (by decide))]
    simp only [hDigit, hStart, hQuote, hScan,
      Bool.false_eq_true, if_false]
    exact ⟨rfl, rfl, hKnows⟩
  · rw [next_of_start hGap hRest hBlank
      (fun _ hEq => absurd hEq hSlash)
        (fun _ hEq => absurd hEq hSlash)]
    simp only [hDigit, hStart, hQuote,
      List.singleton_append, scanSymbol,
      hPair, Bool.false_eq_true, if_false]
    exact ⟨rfl, rfl, hKnows⟩

/- A token is read behind a gap, however written. -/
theorem Knows.next_of_spells
    {gap text more : List Char}
    {item : Except LexCause Token}
    (hKnows : l.Knows)
    (hGap : Gap gap)
    (hSpells : Spells text item)
    (hStops : Stops more)
    (hRest : l.rest = gap ++ (text ++ more)) :
    Took l.next item more := by
  cases hSpells with
  | symbol s => exact hKnows.next_symbol s hGap hStops hRest
  | keyword k =>
      have hWord : Token.ofWord k.spelling =
        .keyword k := by cases k <;> rfl
      rw [← hWord]
      exact hKnows.next_word hGap hStops hRest
        (by cases k <;> rfl) (by cases k <;> rfl)
  | typeName p =>
      have hWord : Token.ofWord p.spelling =
        .typeName p := by cases p <;> rfl
      rw [← hWord]
      exact hKnows.next_word hGap hStops hRest
        (by cases p <;> rfl) (by cases p <;> rfl)
  | boolean b =>
      have hWord : Token.ofWord (toString b) =
        .boolean b := by cases b <;> rfl
      rw [← hWord]
      exact hKnows.next_word hGap hStops hRest
        (by cases b <;> rfl) (by cases b <;> rfl)
  | @identifier c rest hFirst hParts hFree =>
      rw [← Token.ofWord_of_free hFree]
      have hText : (String.ofList (c :: rest)).toList =
        c :: rest :=
        String.toList_ofList
      refine hKnows.next_word hGap hStops
        (hText.symm ▸ hRest) ?_ ?_
      · rw [hText]
        simpa [isWordStart] using hFirst
      · rw [hText]
        simp only [List.all_cons, Bool.and_eq_true,
          List.all_eq_true]
        refine ⟨?_,
          fun d hMem => by
            simpa [isWordPart] using hParts d hMem⟩
        rcases hFirst with hAlpha | rfl
        · simp [isWordPart, Char.isAlphanum, hAlpha]
        · rfl
  | integer hSome hDigits hFits =>
      have hTook :=
        hKnows.next_digits hGap hStops hRest hSome hDigits
      rwa [if_pos hFits] at hTook
  | large hSome hDigits hLarge =>
      have hTook :=
        hKnows.next_digits hGap hStops hRest hSome hDigits
      rwa [if_neg (Nat.not_le_of_lt hLarge)] at hTook
  | string hQuoted =>
      exact hKnows.next_string hGap hRest hQuoted

theorem next_at_end
    (hGap : Gap l.rest) :
    l.next.1 = .ok .endOfFile ∧ l.next.2.rest = [] := by
  have hSkip :
      skipTrivia .blank l.mark l.rest =
        (none, l.mark.pastAll l.rest, []) := by
    have hAll := hGap.skipTrivia_append l.mark []
    rw [List.append_nil] at hAll
    exact hAll
  rw [next, hSkip]
  exact ⟨rfl, rfl⟩

end Lexer

/-
  The way a list of tokens is written: a gap before each one
  and behind the last, where a gap behind a token is empty
  at the end of the text or starts with white space.
-/
inductive Laid : List (Except LexCause Token) →
    List Char → Prop
| nil {gap : List Char}
    (hGap : Gap gap) :
    Laid [] gap
| cons {item : Except LexCause Token}
    {gap text more : List Char}
    {items : List (Except LexCause Token)}
    (hGap : Gap gap)
    (hSpells : Spells text item)
    (hStops : Stops more)
    (hMore : Laid items more) :
    Laid (item :: items) (gap ++ (text ++ more))

namespace Lexer

/- What comes out when so many tokens are asked for. -/
def nexts : Nat → Lexer → List (Except LexFault Token)
| 0, _ => []
| count + 1, l => l.next.1 :: nexts count l.next.2

theorem nexts_at_end
    (more : Nat)
    {l : Lexer}
    (hGap : Gap l.rest) :
    l.nexts more =
      List.replicate more (.ok .endOfFile) := by
  induction more generalizing l with
  | zero => rfl
  | succ more ih =>
      rcases next_at_end hGap with ⟨hEnd, hRest⟩
      rw [nexts, hEnd, ih (hRest ▸ .nil),
        List.replicate_succ]

theorem Knows.nexts
    {items : List (Except LexCause Token)}
    {text : List Char}
    (hLaid : Laid items text)
    (more : Nat)
    {l : Lexer}
    (hKnows : l.Knows)
    (hRest : l.rest = text) :
    (l.nexts (items.length + more)).map
      (Except.mapError LexFault.cause) =
      items ++ List.replicate more (.ok .endOfFile) := by
  induction hLaid generalizing l with
  | nil hGap =>
      subst hRest
      rw [List.length_nil, Nat.zero_add, nexts_at_end more
        hGap, List.map_replicate]
      rfl
  | @cons item gap text behind items hGap hSpells
      hStops _ ih =>
        have hTook :=
          hKnows.next_of_spells hGap hSpells hStops hRest
        rw [List.length_cons, Nat.add_right_comm,
          Lexer.nexts, List.map_cons,
          hTook.outcome, ih hTook.knows hTook.rest]
        rfl

/-
  Asking again and again for a token gives the tokens that a
  text is laid out from, and then its end as often as one
  asks.
-/
theorem nexts_of_laid
    {items : List (Except LexCause Token)}
    {text : String}
    (hLaid : Laid items text.toList)
    (more : Nat) :
    ((ofText text).nexts (items.length + more)).map
        (Except.mapError LexFault.cause) =
      items ++ List.replicate more (.ok .endOfFile) :=
  (knows_ofText text).nexts hLaid more rfl

theorem nexts_sample :
    ((ofText
        "/*<*/x <= 007 //c\n\"a\\n\" 9223372036854775808").nexts 7).map
        (Except.mapError LexFault.cause) =
      [.ok (.identifier "x"), .ok (.symbol .lessEqual),
        .ok (.integer 7), .ok (.string "a\n"),
          .error .largeInteger,
        .ok .endOfFile, .ok .endOfFile] := by
  have hSpace : Gap [' '] := .blank (by decide) .nil
  have hOpening : Gap "/*<*/".toList :=
    @Gap.blockComment ['<'] [] (by decide) .nil
  have hComment : Gap " //c\n".toList :=
    .blank (by decide)
      (@Gap.lineComment ['c'] [] (by decide) .nil)
  have hStops : ∀ {text}, text = ' ' :: text.tail →
    Stops text :=
    fun hText => .inr ⟨' ', _, hText, by decide⟩
  have hFree : ¬ IsReserved "x" := by
    rintro (⟨k, hEq⟩ | ⟨p, hEq⟩ | ⟨b, hEq⟩)
    · cases k <;> exact absurd hEq (by decide)
    · cases p <;> exact absurd hEq (by decide)
    · cases b <;> exact absurd hEq (by decide)
  -- from the last token to the first
  have hLarge := Laid.cons hSpace
    (@Spells.large "9223372036854775808".toList (by decide)
      (List.all_eq_true.mp rfl) (by decide)) (.inl rfl)
        (.nil .nil)
  have hString := Laid.cons hComment
    (@Spells.string "a\n" "a\\n".toList
      (.raw (by decide) (by decide) (.escaped rfl .nil)))
    (hStops (by decide)) hLarge
  have hInteger := Laid.cons hSpace
    (@Spells.integer "007".toList (by decide)
      (List.all_eq_true.mp rfl) (by decide))
    (hStops (by decide)) hString
  have hAtMost := Laid.cons hSpace (.symbol .lessEqual)
    (hStops (by decide)) hInteger
  have hName := Laid.cons hOpening
    (@Spells.identifier 'x' [] (.inl rfl) (by simp) hFree)
    (hStops (by decide)) hAtMost
  exact @nexts_of_laid _
    "/*<*/x <= 007 //c\n\"a\\n\" 9223372036854775808" hName
      2

end Lexer

end Bracketry
