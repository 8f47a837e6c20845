import Bracketry.Proofs.Token.Scanning

/-
  This file says what reading tokens one after the other
  comes to.

  A token that is not the end of the file takes at least one
  character, so there are no more tokens than characters.
  The lines reached only go up.  The tokens up to one of
  them are settled by the text up to two characters behind
  it, and so is a fault.

  Main declarations:
    * `Lexer.Goes` and `TokenStream.Reads`
    * `TokenStream.Reads.agrees_at`
    * `TokenStream.Reads.agrees_of_fault`
-/

namespace Bracketry

variable {after : Lexer}

------------------------------------------------------------
-- Tokens
------------------------------------------------------------

namespace Lexer

/-
  What a lexer says and is left with, apart from the mark
  and the text, as a step.
-/
def parts
    (out : Except LexFault Token × Lexer) :
    (Except LexFault Token × Lexer) × Mark × List Char :=
  ((out.1, { out.2 with mark := .start, rest := [] }),
    out.2.mark, out.2.rest)

/- Nothing is lost in the parts. -/
theorem eq_of_parts
    {out out' : Except LexFault Token × Lexer}
    (hParts : parts out = parts out') :
    out = out' := by
  have hWhole : ∀ o, o = ((parts o).1.1,
      { (parts o).1.2 with
        mark := (parts o).2.1, rest := (parts o).2.2 }) :=
    fun _ => rfl
  rw [hWhole out, hParts]
  rfl

theorem scanWord_eq
    (l : Lexer)
    (m : Mark)
    (cs : List Char) :
    l.scanWord m cs =
      (.ok
        (l.intern
          (String.ofList (cs.takeWhile isWordPart))).1,
        {
          (l.intern
            (String.ofList (cs.takeWhile isWordPart))).2
              with
          mark := m.pastAll (cs.takeWhile isWordPart)
          rest := cs.dropWhile isWordPart }) := rfl

/- A word ends before what cannot continue it. -/
theorem scanWord_settles
    (l : Lexer)
    (m : Mark)
    (text : List Char) :
    Settles (fun cs => parts (l.scanWord m cs)) m text := by
  have hLetters : ∀ c ∈ text.takeWhile isWordPart,
    isWordPart c = true :=
    List.all_eq_true.mp List.all_takeWhile
  have hStop := head?_dropWhile isWordPart text
  rw [← List.takeWhile_append_dropWhile (p := isWordPart)
    (l := text)]
  generalize text.takeWhile isWordPart =
    letters at hLetters ⊢
  generalize text.dropWhile isWordPart = behind at hStop ⊢
  have hWord :
      ∀ more, (∀ c ∈ more.head?, isWordPart c = false) →
      parts (l.scanWord m (letters ++ more)) =
        ((.ok (l.intern (String.ofList letters)).1,
          { (l.intern (String.ofList letters)).2 with
            mark := .start,
            rest := [] }), m.pastAll letters, more) := by
    intro more hMore
    have hSpan := span_append hLetters hMore
    rw [scanWord_eq, hSpan.1, hSpan.2]
    rfl
  exact (Settles.done _).extend letters fun more hAlike =>
    hWord more (head?_of_take hAlike ▸ hStop)

/- Text behind a word does not change its token. -/
theorem parts_scanWord
    (l : Lexer)
    (text : List Char)
    (m : Mark)
    (cs : List Char) :
    parts ({ l with rest := text }.scanWord m cs) =
      parts (l.scanWord m cs) := by
  have hWord : { l with rest := text }.word? (String.ofList
      (cs.takeWhile isWordPart)) =
        l.word? (String.ofList (cs.takeWhile isWordPart)) :=
          rfl
  unfold scanWord intern
  dsimp only
  rw [hWord]
  cases l.word?
    (String.ofList (cs.takeWhile isWordPart)) <;> rfl

variable {l : Lexer} {m : Mark} {c : Char}
    {rest : List Char}

theorem next_of_fault
    {fault : LexFault}
    (hSkip : skipTrivia .blank l.mark l.rest =
      (some fault, m, rest)) :
    l.next = l.accept ⟨.error fault, m, rest⟩ := by
  rw [next, hSkip]

theorem next_of_end
    (hSkip : skipTrivia .blank l.mark l.rest =
      (none, m, [])) :
    l.next = l.accept ⟨.ok .endOfFile, m, []⟩ := by
  rw [next, hSkip]

/- The first character of a token tells how it is read. -/
theorem next_of_first
    (hSkip : skipTrivia .blank l.mark l.rest =
      (none, m, c :: rest)) :
    l.next =
      if c.isDigit then
        l.accept (scanNumber m (c :: rest))
      else if isWordStart c then
        l.scanWord m (c :: rest)
      else if c = '"' then
        l.accept (scanString m.line [] (m.past c) rest)
      else
        l.accept (scanSymbol m c rest) := by
  rw [next, hSkip]

/- A scanner that is chosen by the first character. -/
theorem settles_of_first
    {text : List Char}
    {second : List Char →
      (Except LexFault Token × Lexer) × Mark × List Char}
    (hSkip : skipTrivia .blank l.mark text =
      (none, m, c :: rest))
    (hSecond : Settles second m (c :: rest))
    (hNext : ∀ cs more,
      skipTrivia .blank l.mark cs = (none, m, c :: more) →
        parts { l with rest := cs }.next =
          second (c :: more)) :
    Settles (fun cs => parts { l with rest := cs }.next)
      l.mark text := by
  refine (skipTrivia_settles .blank l.mark text).bind
    second ?_ ?_
  · rw [hSkip]
    exact hSecond
  · rw [hSkip]
    intro cs more hOther hAlike
    cases more with
    | nil => cases hAlike
    | cons d more =>
        cases List.head_eq_of_cons_eq hAlike
        exact hNext cs more hOther

/- Reading one token. -/
theorem next_settles
    (l : Lexer)
    (text : List Char) :
    Settles (fun cs => parts { l with rest := cs }.next)
      l.mark text := by
  rcases hSkip : skipTrivia .blank l.mark text with
    ⟨_ | fault, m, _ | ⟨c, rest⟩⟩
  case none.nil =>
    refine (skipTrivia_settles .blank l.mark text).bind _
      (.done (.ok .endOfFile,
        { l with mark := .start, rest := [] })) ?_
    rw [hSkip]
    intro cs rest hOther hAlike
    have hNil : rest = [] := by simpa using hAlike
    subst hNil
    rw [next_of_end (l := { l with rest := cs }) hOther]
    rfl
  case none.cons =>
    let left : Lexer :=
      { l with mark := .start, rest := [] }
    by_cases hDigit : c.isDigit = true
    · refine settles_of_first hSkip
        ((scanNumber_settles m (c :: rest)).map
        (fun out => (out, left)) fun _ => rfl) ?_
      intro cs more hOther
      rw [next_of_first (l := { l with rest := cs }) hOther,
        if_pos hDigit]
      rfl
    by_cases hWord : isWordStart c = true
    · refine settles_of_first hSkip
        (scanWord_settles l m (c :: rest)) ?_
      intro cs more hOther
      rw [next_of_first (l := { l with rest := cs }) hOther,
        if_neg hDigit, if_pos hWord, parts_scanWord]
    by_cases hQuote : c = '"'
    · have hString :=
        scanString_settles m.line [] (m.past c) rest
      have hQuoted : Settles (fun cs => parts
          (l.accept (scanString m.line [] (m.past c)
            cs.tail))) m (c :: rest) :=
        (hString.map (fun out => (out, left)) fun _ =>
          rfl).cons fun _ _ => rfl
      refine settles_of_first hSkip hQuoted ?_
      intro cs more hOther
      rw [next_of_first (l := { l with rest := cs }) hOther,
        if_neg hDigit, if_neg hWord, if_pos hQuote]
      rfl
    · have hSymbol := scanSymbol_settles m c rest
      have hWhole : Settles (fun cs => parts
          (l.accept (scanSymbol m c cs.tail))) m
            (c :: rest) :=
        (hSymbol.map (fun out => (out, left)) fun _ =>
          rfl).cons fun _ _ => rfl
      refine settles_of_first hSkip hWhole ?_
      intro cs more hOther
      rw [next_of_first (l := { l with rest := cs }) hOther,
        if_neg hDigit, if_neg hWord, if_neg hQuote]
      rfl
  all_goals
    refine (skipTrivia_settles .blank l.mark text).bind _
      (.done (.error fault,
        { l with mark := .start, rest := [] })) ?_
    rw [hSkip]
    intro cs rest hOther _
    rw [next_of_fault (l := { l with rest := cs }) hOther]
    rfl

/-
  Reading a token takes the front of the text, and takes and
  says the same in front of any text that starts with the
  next two characters.
-/
theorem next_alike
    (l : Lexer) :
    ∃ taken, l.rest = taken ++ l.next.2.rest ∧
      l.next.2.mark = l.mark.pastAll taken ∧
        ∀ next rest, l.next.2.rest = next ++ rest →
          2 ≤ next.length →
            ∀ other, { l with
              rest := taken ++ (next ++ other) }.next =
            (l.next.1,
              { l.next.2 with rest := next ++ other }) := by
  rcases next_settles l l.rest with
    ⟨taken, hRest, hMark, hOther⟩
  refine ⟨taken, hRest, hMark, ?_⟩
  intro next rest hNext hTwo other
  exact eq_of_parts (hOther next rest hNext hTwo other)

end Lexer

namespace Lexer

variable {l : Lexer} {m : Mark} {c : Char}
    {rest : List Char}

/-
  What reading a token comes to: the text ends, or a word or
  something else stands behind a gap.
-/
inductive Turns
    (l : Lexer) :
    Except LexFault Token × Lexer → Prop
| ended
    (hSkip : skipTrivia .blank l.mark l.rest =
      (none, l.mark.pastAll l.rest, []))
    (hLast : LastGap l.rest) :
    Turns l
      (.ok .endOfFile,
        { l with
          mark := l.mark.pastAll l.rest, rest := [] })
| word {gap letters behind : List Char}
    (hGap : Gap gap)
    (hRest : l.rest = gap ++ (letters ++ behind))
    (hFirst : ∃ c ∈ letters.head?, isWordStart c = true)
    (hLetters : ∀ c ∈ letters, isWordPart c = true)
    (hStop : ∀ c ∈ behind.head?, isWordPart c = false) :
    Turns l
      (.ok (Token.ofWord (String.ofList letters)),
        { (l.intern (String.ofList letters)).2 with
          mark := l.mark.pastAll (gap ++ letters)
          rest := behind })
| scanned {gap text : List Char} {s : Scan}
    (hGap : Gap gap)
    (hRest : l.rest = gap ++ text)
    (hTakes : s.Takes (l.mark.pastAll gap) text) :
    Turns l (l.accept s)

theorem Knows.turns_of_first
    {gap : List Char}
    (hKnows : l.Knows)
    (hGap : Gap gap)
    (hRest : l.rest = gap ++ c :: rest)
    (hSkip : skipTrivia .blank l.mark l.rest =
      (none, l.mark.pastAll gap, c :: rest)) :
    l.Turns l.next := by
  rw [next_of_first hSkip]
  split
  · rename_i hDigit
    exact .scanned hGap hRest
      (scanNumber_takes _ rest hDigit)
  rename_i hDigit
  split
  · rename_i hStart
    have hIntern :=
      hKnows.intern
        (String.ofList ((c :: rest).takeWhile isWordPart))
    rw [scanWord_eq, hIntern.1, ← Mark.pastAll_append]
    refine .word hGap ?_ ⟨c, ?_, hStart⟩
      (List.all_eq_true.mp List.all_takeWhile)
        (head?_dropWhile _ _)
    · rw [List.takeWhile_append_dropWhile, hRest]
    · rw [List.takeWhile_cons_of_pos
        (by rw [isWordPart_eq, hStart]; rfl)]
      rfl
  rename_i hStart
  split
  · rename_i hQuote
    subst hQuote
    exact .scanned hGap hRest (scanString_takes _ rest)
  · have hPart : isWordPart c = false := by
      rw [isWordPart_eq, Bool.or_eq_false_iff]
      exact ⟨Bool.eq_false_iff.mpr hStart,
        Bool.eq_false_iff.mpr hDigit⟩
    exact .scanned hGap hRest
      (scanSymbol_takes _ rest hPart)

theorem Knows.turns
    (hKnows : l.Knows) :
    l.Turns l.next := by
  have hSkips : Skipped l.mark l.rest
    (skipTrivia .blank l.mark l.rest) :=
    skipTrivia_skips .blank l.mark l.rest
  generalize hSkip : skipTrivia .blank l.mark l.rest =
    out at hSkips
  cases hSkips with
  | start hGap hText =>
      exact hKnows.turns_of_first hGap hText hSkip
  | ended hLast =>
      rw [next_of_end hSkip]
      exact .ended hSkip hLast
  | opened hGap hOpen hText =>
      rw [next_of_fault hSkip]
      refine .scanned hGap hText ?_
      rw [hText, Mark.pastAll_append]
      exact .opened hOpen

/- The end is read where nothing but a gap is left. -/
theorem Turns.skipTrivia_eq
    {out : Except LexFault Token × Lexer}
    (hTurns : l.Turns out)
    (hEnd : out.1 = .ok .endOfFile) :
    LastGap l.rest ∧ skipTrivia .blank l.mark l.rest =
      (none, l.mark.pastAll l.rest, []) := by
  cases hTurns with
  | ended hSkip hLast => exact ⟨hLast, hSkip⟩
  | word hGap hRest hFirst hLetters hStop =>
      have hProper := Token.ofWord_isProper hLetters
      rw [Except.ok.inj hEnd] at hProper
      exact hProper.elim
  | scanned hGap hRest hTakes =>
      exact (hTakes.proper hEnd).elim

/-
  What comes out of reading a token: the end of the file
  comes at the end of the text, and a token before it takes
  at least one character.  What is taken is settled two
  characters behind it.
-/
structure Goes
    (l : Lexer)
    (outcome : Except LexFault Token)
    (after : Lexer) : Prop where
  knows : after.Knows
  reaches : ∀ fault, outcome = .error fault →
    l.line ≤ fault.line ∧ fault.line ≤ after.line
  ended : outcome = .ok .endOfFile → after.rest = []
  proper : ∀ t, outcome = .ok t → t ≠ .endOfFile →
    t.IsProper ∧ after.rest.length < l.rest.length
  takes : ∃ taken, l.rest = taken ++ after.rest ∧
    after.mark = l.mark.pastAll taken ∧
      ∀ next rest, after.rest = next ++ rest →
        2 ≤ next.length → ∀ other,
          { l with rest := taken ++ (next ++ other) }.next =
          (outcome, { after with rest := next ++ other })

theorem Knows.goes
    {outcome : Except LexFault Token}
    (hKnows : l.Knows)
    (hNext : l.next = (outcome, after)) :
    l.Goes outcome after := by
  have hTakes := l.next_alike
  have hTurns := hKnows.turns
  rw [hNext] at hTakes hTurns
  cases hTurns with
  | ended hSkip =>
      refine ⟨hKnows, ?_, fun _ => rfl, ?_, hTakes⟩
      · rintro fault ⟨⟩
      · rintro t ⟨⟩ hToken
        exact absurd rfl hToken
  | @word gap letters behind hGap hRest hFirst
      hLetters hStop =>
        have hProper := Token.ofWord_isProper hLetters
        refine ⟨(hKnows.intern _).2, ?_, ?_, ?_, hTakes⟩
        · rintro fault ⟨⟩
        · intro hEnd
          rw [Except.ok.inj hEnd] at hProper
          exact hProper.elim
        · rintro t ⟨⟩ _
          rcases hFirst with ⟨c, hHead, -⟩
          refine ⟨hProper, ?_⟩
          have hSome := List.length_pos_of_mem
            (List.mem_of_mem_head? hHead)
          change behind.length < _
          rw [hRest, List.length_append, List.length_append]
          omega
  | @scanned gap text s hGap hRest hScan =>
      refine ⟨hKnows, ?_,
        fun hEnd => (hScan.proper hEnd).elim, ?_, hTakes⟩
      · intro fault hFault
        have hBounds := hScan.reaches hFault
        exact ⟨(l.mark.line_le_pastAll gap).trans hBounds.1,
          hBounds.2⟩
      · intro t hToken _
        rcases hScan.takes_some with
          ⟨taken, hSome, hText, -⟩
        refine ⟨hScan.proper hToken, ?_⟩
        have hPos := List.length_pos_iff.mpr hSome
        change s.rest.length < _
        rw [hRest, hText, List.length_append,
          List.length_append]
        omega

theorem Goes.line_le
    {outcome : Except LexFault Token}
    (hGoes : l.Goes outcome after) :
    l.line ≤ after.line := by
  rcases hGoes.takes with ⟨taken, -, hMark, -⟩
  rw [line, line, hMark]
  exact l.mark.line_le_pastAll taken

end Lexer

------------------------------------------------------------
-- Streams
------------------------------------------------------------

namespace TokenStream

/- All tokens that a lexer reads, one after the other. -/
inductive Reads : Lexer → TokenStream → Prop
| fault {l after : Lexer} {fault : LexFault}
    (hNext : l.next = (.error fault, after))
    (hGoes : l.Goes (.error fault) after) :
    Reads l ⟨[], some fault, after⟩
| ended {l after : Lexer}
    (hNext : l.next = (.ok .endOfFile, after))
    (hGoes : l.Goes (.ok .endOfFile) after) :
    Reads l ⟨[], none, after⟩
| token {l after : Lexer} {t : Token} {behind : TokenStream}
    (hNext : l.next = (.ok t, after))
    (hToken : t ≠ .endOfFile)
    (hGoes : l.Goes (.ok t) after)
    (hBehind : Reads after behind) :
    Reads l { behind with
      lexemes := ⟨t, after.mark⟩ :: behind.lexemes }

/- The number of characters is enough to come to an end. -/
theorem reads_read
    {count : Nat}
    {l : Lexer}
    (hKnows : l.Knows)
    (hCount : l.rest.length < count) :
    Reads l (read count l) := by
  induction count generalizing l with
  | zero => cases hCount
  | succ count ih =>
      rw [read]
      split
      · rename_i fault after hNext
        exact .fault hNext (hKnows.goes hNext)
      · rename_i after hNext
        exact .ended hNext (hKnows.goes hNext)
      · rename_i t after hToken hNext
        have hGoes := hKnows.goes hNext
        have hShorter := (hGoes.proper t rfl hToken).2
        exact .token hNext hToken hGoes
          (ih hGoes.knows (by omega))

theorem reads_ofText
    (text : String) :
    Reads (.ofText text) (ofText text) :=
  reads_read (Lexer.knows_ofText text) (Nat.lt_succ_self _)

namespace Reads

variable {l : Lexer} {s : TokenStream} {t : Token}

/- Without a fault the whole text is read. -/
theorem rest_of_ended
    (hReads : Reads l s)
    (hEnded : s.fault? = none) :
    s.final.rest = [] := by
  induction hReads with
  | fault hNext hGoes => cases hEnded
  | ended hNext hGoes => exact hGoes.ended rfl
  | token hNext hToken hGoes hBehind ih => exact ih hEnded

/- The last mark stands behind the text that was read. -/
theorem final_mark
    (hReads : Reads l s) :
    ∃ taken, l.rest = taken ++ s.final.rest ∧
      s.final.mark = l.mark.pastAll taken := by
  induction hReads with
  | fault hNext hGoes =>
      rcases hGoes.takes with ⟨taken, hRest, hMark, -⟩
      exact ⟨taken, hRest, hMark⟩
  | ended hNext hGoes =>
      rcases hGoes.takes with ⟨taken, hRest, hMark, -⟩
      exact ⟨taken, hRest, hMark⟩
  | token hNext hToken hGoes hBehind ih =>
      rcases hGoes.takes with ⟨taken, hRest, hMark, -⟩
      rcases ih with ⟨more, hRest', hMark'⟩
      refine ⟨taken ++ more, ?_, ?_⟩
      · rw [hRest, hRest', List.append_assoc]
      · rw [hMark', hMark, Mark.pastAll_append]

/- Every token takes at least one character. -/
theorem length_le
    (hReads : Reads l s) :
    s.lexemes.length ≤ l.rest.length := by
  induction hReads with
  | fault hNext hGoes => exact Nat.zero_le _
  | ended hNext hGoes => exact Nat.zero_le _
  | token hNext hToken hGoes hBehind ih =>
      exact Nat.lt_of_le_of_lt ih
        (hGoes.proper _ rfl hToken).2

theorem proper
    (hReads : Reads l s) :
    ∀ lexeme ∈ s.lexemes, lexeme.token.IsProper := by
  induction hReads with
  | fault hNext hGoes => simp
  | ended hNext hGoes => simp
  | token hNext hToken hGoes hBehind ih =>
      rw [List.forall_mem_cons]
      exact ⟨(hGoes.proper _ rfl hToken).1, ih⟩

/- Lines only go up. -/
theorem lines_sorted
    (hReads : Reads l s) :
    (l.line :: (s.lexemes.map Lexeme.line ++
      [s.final.line])).Pairwise (· ≤ ·) := by
  induction hReads with
  | fault hNext hGoes => simpa using hGoes.line_le
  | ended hNext hGoes => simpa using hGoes.line_le
  | @token l after t behind hNext hToken hGoes hBehind ih =>
      refine List.Pairwise.cons ?_ ih
      intro line hMem
      rcases List.mem_cons.mp hMem with rfl | hLater
      · exact hGoes.line_le
      · exact hGoes.line_le.trans
          ((List.pairwise_cons.mp ih).1 line hLater)

variable {fault : LexFault}

/- A fault is reported on a line that was reached. -/
theorem fault_line
    (hReads : Reads l s)
    (hFault : s.fault? = some fault) :
    l.line ≤ fault.line ∧ fault.line ≤ s.final.line := by
  induction hReads with
  | fault hNext hGoes =>
      cases hFault
      exact hGoes.reaches _ rfl
  | ended hNext hGoes => cases hFault
  | token hNext hToken hGoes hBehind ih =>
      exact ⟨hGoes.line_le.trans (ih hFault).1,
        (ih hFault).2⟩

/- The first token of a stream is the next one. -/
theorem of_token
    (hReads : Reads l s)
    (hNext : l.next = (.ok t, after))
    (hToken : t ≠ .endOfFile) :
    ∃ behind, Reads after behind ∧
      s = { behind with
        lexemes := ⟨t, after.mark⟩ :: behind.lexemes } := by
  cases hReads with
  | fault hOther hGoes => cases hOther.symm.trans hNext
  | ended hOther hGoes =>
      cases hOther.symm.trans hNext
      exact absurd rfl hToken
  | @token _ _ _ behind hOther _ _ hBehind =>
      cases hOther.symm.trans hNext
      exact ⟨behind, hBehind, rfl⟩

theorem of_fault
    (hReads : Reads l s)
    (hNext : l.next = (.error fault, after)) :
    s = ⟨[], some fault, after⟩ := by
  cases hReads with
  | fault hOther hGoes =>
      cases hOther.symm.trans hNext
      rfl
  | ended hOther hGoes => cases hOther.symm.trans hNext
  | token hOther _ _ _ => cases hOther.symm.trans hNext

/-
  From `l` on, the text up to a mark and two characters
  behind it decides that a stream is of a kind.
-/
def Decided
    (l : Lexer)
    (mark : Mark)
    (kind : TokenStream → Prop) : Prop :=
  ∃ taken rest, l.rest = taken ++ rest ∧
    mark = l.mark.pastAll taken ∧
    ∀ next back other s', rest = next ++ back →
      2 ≤ next.length →
        Reads { l with rest := taken ++ (next ++ other) }
          s' → kind s'

/- What is decided behind a token is decided with it. -/
theorem Decided.behind
    {mark : Mark}
    {kind kind' : TokenStream → Prop}
    (hDecided : Decided after mark kind)
    (hGoes : l.Goes (.ok t) after)
    (hToken : t ≠ .endOfFile)
    (hKind : ∀ stream, kind stream →
      kind' { stream with
        lexemes := ⟨t, after.mark⟩ :: stream.lexemes }) :
    Decided l mark kind' := by
  rcases hGoes.takes with ⟨taken, hRest, hMark, hAlike⟩
  rcases hDecided with
    ⟨taken', rest, hRest', hMark', hAgrees⟩
  refine ⟨taken ++ taken', rest, ?_, ?_, ?_⟩
  · rw [hRest, hRest', List.append_assoc]
  · rw [hMark', hMark, Mark.pastAll_append]
  · intro next back other s' hSplit hTwo hOther
    have hSame := hAlike (taken' ++ next) back
      (by rw [hRest', hSplit, List.append_assoc])
      (by rw [List.length_append]; omega) other
    rw [List.append_assoc] at hOther hSame
    rcases hOther.of_token hSame hToken with
      ⟨stream', hStream, rfl⟩
    exact hKind stream'
      (hAgrees next back other stream' hSplit hTwo hStream)

/-
  The tokens up to one of them are settled by the text up to
  two characters behind that one.
-/
theorem agrees_at
    {before after : List Lexeme}
    {lexeme : Lexeme}
    (hReads : Reads l s)
    (hLexemes : s.lexemes = before ++ lexeme :: after) :
    Decided l lexeme.mark fun s' =>
      ∃ after', s'.lexemes = before ++
        lexeme :: after' := by
  induction hReads generalizing before with
  | fault hNext hGoes =>
      exact absurd hLexemes.symm
        (List.append_ne_nil_of_right_ne_nil _
        (List.cons_ne_nil _ _))
  | ended hNext hGoes =>
      exact absurd hLexemes.symm
        (List.append_ne_nil_of_right_ne_nil _
        (List.cons_ne_nil _ _))
  | @token l behind t stream hNext hToken hGoes
      hBehind ih =>
        cases before with
        | nil =>
            cases List.head_eq_of_cons_eq hLexemes
            rcases hGoes.takes with
              ⟨taken, hRest, hMark, hAlike⟩
            refine ⟨taken, behind.rest, hRest, hMark, ?_⟩
            intro next back other s' hSplit hTwo hOther
            rcases hOther.of_token
              (hAlike next back hSplit hTwo other) hToken
              with ⟨stream', -, rfl⟩
            exact ⟨stream'.lexemes, rfl⟩
        | cons first before =>
            rcases List.cons_eq_cons.mp hLexemes with
              ⟨rfl, hMore⟩
            refine (ih hMore).behind hGoes hToken
              fun stream' hStream => ?_
            rcases hStream with ⟨after', hAfter⟩
            exact ⟨after',
              congrArg (Lexeme.mk t behind.mark :: ·)
                hAfter⟩

/- So are all tokens before a fault, and the fault. -/
theorem agrees_of_fault
    (hReads : Reads l s)
    (hFault : s.fault? = some fault) :
    Decided l s.final.mark fun s' =>
      s'.lexemes = s.lexemes ∧ s'.fault? = s.fault? ∧
        s'.final.mark = s.final.mark := by
  induction hReads with
  | fault hNext hGoes =>
      rcases hGoes.takes with ⟨taken, hRest, hMark, hAlike⟩
      refine ⟨taken, _, hRest, hMark, ?_⟩
      intro next back other s' hSplit hTwo hOther
      rw [hOther.of_fault
        (hAlike next back hSplit hTwo other)]
      exact ⟨rfl, rfl, rfl⟩
  | ended hNext hGoes => cases hFault
  | @token l behind t stream hNext hToken hGoes
      hBehind ih =>
        refine (ih hFault).behind hGoes hToken
          fun stream' hStream => ?_
        rcases hStream with ⟨hLexemes, hRest⟩
        exact ⟨congrArg (Lexeme.mk t behind.mark :: ·)
          hLexemes, hRest⟩

end Reads

end TokenStream

end Bracketry
