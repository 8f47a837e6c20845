import Bracketry.Proofs.Token.Positions
import Mathlib.Data.List.Dedup

/-
  This file says which words a lexer knows after any calls.

  The table of words holds the reserved words and each name
  that was handed out, once.  So no name hides a reserved
  word.  A word is read from a run of letters, digits and
  underscores that is as long as can be on both sides; the
  digits it starts with are a number before it.

  Main declarations:
    * `Lexer.Holds` and `Apart`
    * `Lexer.StandsApart.performAll` and `Lexer.words_exact`
-/

namespace Bracketry

variable {gap : List Char}

/- The name that a token is. -/
def Token.name? : Token → Option String
| .identifier name => some name
| _ => none

/- A token that is made of letters. -/
def Token.IsWord : Token → Prop
| .identifier _ => True
| .keyword _ => True
| .typeName _ => True
| .boolean _ => True
| _ => False

namespace Lexer

------------------------------------------------------------
-- The Table of Words
------------------------------------------------------------

/- The name that was read, if it was one. -/
def nameOf? (outcome : Except LexFault Token) :
    Option String :=
  outcome.toOption.bind Token.name?

/- The names among what was handed out. -/
def names (outcomes : List (Except LexFault Token)) :
    List String :=
  outcomes.filterMap nameOf?

/- The reserved words and the names met, each once. -/
structure Holds
    (seen : List String)
    (words : List (String × Token)) : Prop where
  table : ∃ met : List String, met.Nodup ∧
    (∀ w, w ∈ met ↔ w ∈ seen) ∧
    words = Token.reserved ++ met.map fun w =>
      (w, Token.identifier w)
  free : ∀ w ∈ seen, Token.reserved.lookup w = none

theorem lookup_names
    (met : List String)
    (w : String) :
    (met.map fun v => (v, Token.identifier v)).lookup w =
      if w ∈ met then some (.identifier w) else none := by
  induction met with
  | nil => rfl
  | cons v met ih =>
      rw [List.map_cons, List.lookup_cons, ih]
      by_cases hSame : w = v
      · simp [hSame]
      · simp [hSame, beq_false_of_ne hSame]

namespace Holds

variable {seen : List String}
    {words : List (String × Token)}

theorem lookup_eq
    (hHolds : Holds seen words)
    (w : String) :
    words.lookup w = (Token.reserved.lookup w).or
      (if w ∈ seen then some (.identifier w) else
        none) := by
  rcases hHolds.table with ⟨met, -, hMem, rfl⟩
  rw [List.lookup_append, lookup_names]
  simp only [hMem]

theorem length_eq
    (hHolds : Holds seen words) :
    words.length = 14 + seen.dedup.length := by
  rcases hHolds.table with ⟨met, hNodup, hMem, rfl⟩
  have hSame : met.Perm seen.dedup := by
    rw [List.perm_ext_iff_of_nodup hNodup
      (List.nodup_dedup seen)]
    intro w
    rw [List.mem_dedup, hMem]
  rw [List.length_append, List.length_map, hSame.length_eq]
  rfl

/- A word that is known changes nothing. -/
theorem intern
    {l : Lexer}
    (hHolds : Holds seen l.words)
    (w : String) :
    Holds (seen ++ (Token.ofWord w).name?.toList)
      (l.intern w).2.words := by
  have hLookup := hHolds.lookup_eq w
  unfold Lexer.intern word? Token.ofWord
  rw [hLookup]
  cases hReserved : Token.reserved.lookup w with
  | some t =>
      have hNone : t.name? = none := by
        rcases Token.reserved_cases
          (Token.mem_reserved hReserved) with
          ⟨b, rfl⟩ | ⟨k, rfl⟩ | ⟨p, rfl⟩ <;> rfl
      change Holds (seen ++ t.name?.toList) l.words
      rw [hNone, Option.toList_none, List.append_nil]
      exact hHolds
  | none =>
      change Holds (seen ++ [w]) _
      rcases hHolds.table with ⟨met, hNodup, hMem, hWords⟩
      have hFree : ∀ v ∈ seen ++ [w],
          Token.reserved.lookup v = none := by
        intro v hIn
        rcases List.mem_append.mp hIn with hSeen | hNew
        · exact hHolds.free v hSeen
        · rw [List.mem_singleton.mp hNew, hReserved]
      by_cases hSeen : w ∈ seen
      · rw [if_pos hSeen]
        refine ⟨⟨met, hNodup, ?_, hWords⟩, hFree⟩
        intro v
        rw [hMem, List.mem_append, List.mem_singleton]
        exact ⟨.inl, fun hIn => hIn.elim id fun hEq =>
          hEq ▸ hSeen⟩
      · rw [if_neg hSeen]
        refine ⟨⟨met ++ [w], ?_, ?_, ?_⟩, hFree⟩
        · rw [List.nodup_append_comm, List.singleton_append,
            List.nodup_cons]
          exact ⟨mt (hMem w).mp hSeen, hNodup⟩
        · intro v
          rw [List.mem_append, List.mem_append, hMem]
        · change l.words ++ _ = _
          rw [hWords, List.map_append, List.append_assoc]
          rfl

end Holds

/- Nothing but a word is a name. -/
theorem nameOf?_of_takes
    {m : Mark}
    {text : List Char}
    {s : Scan}
    (hTakes : s.Takes m text) :
    nameOf? s.outcome = none := by
  cases hTakes with
  | piece item hText hPiece hPlain =>
      cases item with
      | ok t => cases t <;> first | rfl | exact hPlain.elim
      | error cause => rfl
  | opened hOpen => rfl

section

variable {l : Lexer} {seen : List String}

/- What is read is added to the names that were met. -/
theorem Turns.holds
    {out : Except LexFault Token × Lexer}
    (hTurns : l.Turns out)
    (hHolds : Holds seen l.words) :
    Holds (seen ++ (nameOf? out.1).toList) out.2.words := by
  cases hTurns with
  | ended hSkip =>
      exact (List.append_nil seen).symm ▸ hHolds
  | word hGap hRest hFirst hLetters hStop =>
      exact hHolds.intern _
  | scanned hGap hRest hTakes =>
      have hNone : nameOf? (l.accept _).1 = none :=
        nameOf?_of_takes hTakes
      rw [hNone, Option.toList_none, List.append_nil]
      exact hHolds

theorem words_hasToken
    (l : Lexer) :
    l.hasToken.2.words = l.words := by
  rcases hSkip : skipTrivia .blank l.mark l.rest with
    ⟨_ | fault, m, rest⟩
  · rw [hasToken_of_skip hSkip]
  · rw [hasToken_of_fault hSkip]

theorem Holds.perform
    (hHolds : Holds seen l.words)
    (hKnows : l.Knows)
    (call : Call) :
    Holds (seen ++ names (l.perform call).1.toList)
      (l.perform call).2.words := by
  have hRead := hKnows.turns.holds hHolds
  rcases l.perform_cases call with
    ⟨failed, hAfter, hOut | ⟨hNone, hEnd⟩⟩ |
    ⟨hNone, hSame | hAsked⟩
  · rw [hOut, hAfter]
    exact hRead
  · rw [hNone, hAfter]
    rw [hEnd] at hRead
    exact hRead
  · rw [hNone, hSame]
    exact (List.append_nil seen).symm ▸ hHolds
  · rw [hNone, hAsked, words_hasToken]
    exact (List.append_nil seen).symm ▸ hHolds

theorem Holds.performAll
    {text taken : List Char}
    (hHolds : Holds seen l.words)
    (hStands : StandsBehind text taken l)
    (calls : List Call) :
    Holds (seen ++ names (l.performAll calls).1)
      (l.performAll calls).2.words := by
  induction calls generalizing l seen taken with
  | nil => exact (List.append_nil seen).symm ▸ hHolds
  | cons call rest ih =>
      rcases hStands.perform call with ⟨more, hFirst⟩
      have hRest :=
        ih (hHolds.perform hStands.knows call) hFirst
      rw [List.append_assoc, names, names,
        ← List.filterMap_append] at hRest
      exact hRest

end

theorem holds_after
    (text : String)
    (calls : List Call) :
    Holds (names (handed text calls))
      (after text calls).words := by
  have hStart : Holds [] (ofText text).words :=
    ⟨⟨[], List.nodup_nil, fun _ => Iff.rfl,
      (List.append_nil _).symm⟩,
      fun _ hMem => absurd hMem List.not_mem_nil⟩
  exact hStart.performAll (standsBehind_ofText text) calls

end Lexer

------------------------------------------------------------
-- Runs of Letters
------------------------------------------------------------

/- No word is at its end. -/
def EndsApart (taken : List Char) : Prop :=
  ∀ c ∈ taken.getLast?, isWordPart c = false

/- At most digits of a word are at its end. -/
def Fresh (taken : List Char) : Prop :=
  ∃ before digits, taken = before ++ digits ∧
    (∀ c ∈ digits, c.isDigit = true) ∧ EndsApart before

/- A text is cut where no word is cut in two. -/
def Apart (taken rest : List Char) : Prop :=
  Fresh taken ∨ ∀ c ∈ rest.head?, isWordPart c = false

theorem endsApart_concat
    (front : List Char)
    {c : Char}
    (hLast : isWordPart c = false) :
    EndsApart (front ++ [c]) := by
  rintro d hMem
  rw [List.getLast?_concat] at hMem
  exact Option.some.inj hMem ▸ hLast

theorem EndsApart.append
    {front back : List Char}
    (hFront : EndsApart front)
    (hBack : EndsApart back) :
    EndsApart (front ++ back) := by
  intro c hMem
  rw [List.getLast?_append, Option.mem_def,
    Option.or_eq_some_iff] at hMem
  exact hMem.elim (hBack c) fun hOther => hFront c hOther.2

theorem EndsApart.fresh
    {taken : List Char}
    (hLast : EndsApart taken) :
    Fresh taken :=
  ⟨taken, [], (List.append_nil taken).symm, by simp, hLast⟩

theorem Fresh.append_digits
    {taken digits : List Char}
    (hFresh : Fresh taken)
    (hDigits : ∀ c ∈ digits, c.isDigit = true) :
    Fresh (taken ++ digits) := by
  rcases hFresh with ⟨before, others, rfl, hOthers, hLast⟩
  refine ⟨before, others ++ digits, List.append_assoc ..,
    ?_, hLast⟩
  exact List.forall_mem_append.mpr ⟨hOthers, hDigits⟩

/- A gap ends in white space or with a comment. -/
theorem Gap.endsApart
    (hGap : Gap gap) :
    EndsApart gap := by
  induction hGap with
  | nil => simp [EndsApart]
  | @blank c rest hBlank hRest ih =>
      refine (endsApart_concat [] ?_).append ih
      simp only [List.mem_cons, List.not_mem_nil, or_false]
        at hBlank
      rcases hBlank with rfl | rfl | rfl | rfl <;> rfl
  | @lineComment body rest hBody hRest ih =>
      rw [List.append_cons]
      exact (endsApart_concat ('/' :: '/' :: body)
        rfl).append ih
  | @blockComment body rest hBody hRest ih =>
      rw [List.append_cons, List.append_cons]
      exact (endsApart_concat
        ('/' :: '*' :: (body ++ ['*'])) rfl).append ih

/- Behind a gap a word or a number starts anew. -/
theorem Apart.fresh
    {taken gap rest : List Char}
    {c : Char}
    (hApart : Apart taken (gap ++ c :: rest))
    (hGap : Gap gap)
    (hPart : isWordPart c = true) :
    Fresh (taken ++ gap) := by
  rcases List.eq_nil_or_concat' gap with
    rfl | ⟨front, d, rfl⟩
  · rw [List.append_nil]
    refine hApart.resolve_right fun hHead => ?_
    exact absurd hPart (Bool.eq_false_iff.mp (hHead c rfl))
  · rw [← List.append_assoc]
    exact (endsApart_concat _
      (hGap.endsApart d List.getLast?_concat)).fresh

/- Skipping a gap cuts no word. -/
theorem Apart.skip
    {taken gap rest : List Char}
    (hApart : Apart taken (gap ++ rest))
    (hGap : Gap gap) :
    Apart (taken ++ gap) rest := by
  cases rest with
  | nil => exact .inr (by simp)
  | cons c rest =>
      by_cases hPart : isWordPart c = true
      · exact .inl (hApart.fresh hGap hPart)
      · right
        rintro _ ⟨⟩
        exact Bool.eq_false_iff.mpr hPart

/- A number or a symbol cuts no word. -/
theorem Apart.piece
    {taken gap piece rest : List Char}
    (hApart : Apart taken (gap ++ (piece ++ rest)))
    (hGap : Gap gap)
    (hPiece : Piece piece) :
    Fresh (taken ++ (gap ++ piece)) := by
  rw [← List.append_assoc]
  cases hPiece with
  | other front hLast =>
      rw [← List.append_assoc]
      exact (endsApart_concat _ hLast).fresh
  | @number front digits hFront hSome hDigits =>
      rw [← List.append_assoc]
      refine Fresh.append_digits ?_ hDigits
      rcases List.eq_nil_or_concat' front with
        rfl | ⟨front, c, rfl⟩
      · rcases List.exists_cons_of_ne_nil hSome with
          ⟨d, others, rfl⟩
        rw [List.append_nil]
        refine hApart.fresh hGap ?_
        rw [isWordPart_eq, hDigits d List.mem_cons_self,
          Bool.or_true]
      · rw [← List.append_assoc]
        exact (endsApart_concat _
          (hFront c List.getLast?_concat)).fresh

namespace Lexer

variable {l : Lexer} {text : List Char}
variable {out : Except LexFault Token × Lexer}

/- A lexer that stands where no word is cut in two. -/
def StandsApart
    (text : List Char)
    (l : Lexer) : Prop :=
  ∃ taken, StandsBehind text taken l ∧ Apart taken l.rest

/- Reading a token ends where no word is cut in two. -/
theorem Turns.standsApart
    (hTurns : l.Turns out)
    (hKnows : out.2.Knows)
    (hStands : StandsApart text l) :
    StandsApart text out.2 := by
  rcases hStands with ⟨taken, hBehind, hApart⟩
  cases hTurns with
  | ended hSkip =>
      exact ⟨taken ++ l.rest,
        hBehind.move hKnows (List.append_nil _).symm rfl,
        .inr (by simp)⟩
  | @word gap letters behind hGap hRest hFirst
      hLetters hStop =>
        refine ⟨taken ++ (gap ++ letters),
          hBehind.move hKnows ?_ rfl, .inr hStop⟩
        rw [hRest, List.append_assoc]
  | scanned hGap hRest hTakes =>
      cases hTakes with
      | @piece piece behind item hText hPiece hPlain =>
          rw [hText] at hRest
          rw [hRest] at hApart
          refine ⟨taken ++ (_ ++ piece),
            hBehind.move hKnows ?_ ?_,
            .inl (hApart.piece hGap hPiece)⟩
          · rw [hRest, List.append_assoc]
            rfl
          · rw [Mark.pastAll_append]
            rfl
      | opened hOpen =>
          refine ⟨taken ++ l.rest,
            hBehind.move hKnows ?_ ?_,
              .inr (by simp [accept])⟩
          · exact (List.append_nil _).symm
          · rw [hRest, Mark.pastAll_append]
            rfl

theorem StandsApart.hasToken
    (hStands : StandsApart text l) :
    StandsApart text l.hasToken.2 := by
  rcases hStands with ⟨taken, hBehind, hApart⟩
  have hSkips : Skipped l.mark l.rest
    (skipTrivia .blank l.mark l.rest) :=
    skipTrivia_skips .blank l.mark l.rest
  generalize hSkip : skipTrivia .blank l.mark l.rest =
    out at hSkips
  cases hSkips with
  | @start gap rest c hGap hText =>
      rw [hasToken_of_skip hSkip]
      rw [hText] at hApart
      exact ⟨taken ++ gap,
        hBehind.move hBehind.knows hText rfl,
        hApart.skip hGap⟩
  | ended =>
      rw [hasToken_of_skip hSkip]
      exact ⟨taken ++ l.rest, hBehind.move hBehind.knows
        (List.append_nil _).symm rfl, .inr (by simp)⟩
  | opened hGap hOpen hText =>
      rw [hasToken_of_fault hSkip]
      exact ⟨taken, hBehind, hApart⟩

theorem StandsApart.performAll
    (hStands : StandsApart text l)
    (calls : List Call) :
    StandsApart text (l.performAll calls).2 := by
  induction calls generalizing l with
  | nil => exact hStands
  | cons call rest ih =>
      refine ih ?_
      have hKnows := hStands.choose_spec.1.knows
      have hGoes :=
        hKnows.goes (Prod.mk.eta (p := l.next)).symm
      rcases l.perform_cases call with ⟨failed, hAfter, -⟩ |
        ⟨-, hSame | hAsked⟩
      · rcases hKnows.turns.standsApart hGoes.knows
          hStands with
          ⟨taken, ⟨hStill, hText, hMark⟩, hApart⟩
        rw [hAfter]
        exact ⟨taken, ⟨hStill, hText, hMark⟩, hApart⟩
      · rw [hSame]
        exact hStands
      · rw [hAsked]
        exact hStands.hasToken

/- A word comes behind the digits of a run. -/
theorem Turns.word_run
    {taken : List Char}
    {t : Token}
    (hTurns : l.Turns out)
    (hBehind : StandsBehind text taken l)
    (hApart : Apart taken l.rest)
    (hToken : out.1 = .ok t)
    (hWord : t.IsWord) :
    ∃ before run behind, text = before ++ run ++ behind ∧
      EndsApart before ∧ (∀ c ∈ run, isWordPart c = true) ∧
        (∀ c ∈ behind.head?, isWordPart c = false) ∧
          out.2.position = (before ++ run).length ∧
            t =
              .ofWord
                (String.ofList
                  (run.dropWhile Char.isDigit)) := by
  cases hTurns with
  | ended hSkip =>
      cases hToken
      exact hWord.elim
  | scanned hGap hRest hTakes =>
      cases hTakes with
      | piece item hText hPiece hPlain =>
          cases item with
          | ok token =>
              cases hToken
              cases t <;>
                first | exact hWord.elim | exact hPlain.elim
          | error cause => cases hToken
      | opened hOpen => cases hToken
  | @word gap letters behind hGap hRest hFirst
      hLetters hStop =>
        cases hToken
        rcases hFirst with ⟨c, hHead, hStart⟩
        rcases List.exists_cons_of_ne_nil
          (List.ne_nil_of_mem (List.mem_of_mem_head? hHead))
            with ⟨d, others, rfl⟩
        cases hHead
        rw [hRest, List.cons_append] at hApart
        rcases hApart.fresh hGap
          (hLetters c List.mem_cons_self) with
          ⟨before, digits, hTaken, hDigits, hLast⟩
        refine ⟨before, digits ++ c :: others, behind, ?_,
          hLast, ?_, hStop, ?_, ?_⟩
        · rw [hBehind.text_eq, hRest, ← List.append_assoc,
            hTaken]
          simp
        · refine List.forall_mem_append.mpr
            ⟨fun d hMem => ?_, hLetters⟩
          rw [isWordPart_eq, hDigits d hMem, Bool.or_true]
        · change (l.mark.pastAll
            (gap ++ c :: others)).position = _
          rw [hBehind.mark_eq, ← Mark.pastAll_append,
            Mark.position_pastAll,
            ← List.append_assoc, hTaken, List.append_assoc]
          exact Nat.zero_add _
        · rw [List.dropWhile_append_of_pos hDigits,
            List.dropWhile_cons_of_neg
              (Bool.eq_false_iff.mp
                (isDigit_of_isWordStart hStart))]

/- The reserved words are found in their table. -/
theorem lookup_keyword
    (k : Keyword) :
    Token.reserved.lookup k.spelling =
      some (.keyword k) := by
  cases k <;> rfl

theorem lookup_primitive
    (p : Primitive) :
    Token.reserved.lookup p.spelling =
      some (.typeName p) := by
  cases p <;> rfl

theorem lookup_boolean
    (b : Bool) :
    Token.reserved.lookup (toString b) =
      some (.boolean b) := by
  cases b <;> rfl

theorem isReserved_lookup
    {w : String}
    (hReserved : IsReserved w) :
    ∃ t, Token.reserved.lookup w = some t := by
  rcases hReserved with ⟨k, rfl⟩ | ⟨p, rfl⟩ | ⟨b, rfl⟩
  · exact ⟨_, lookup_keyword k⟩
  · exact ⟨_, lookup_primitive p⟩
  · exact ⟨_, lookup_boolean b⟩

/-
  After any calls on a text, each of the fourteen reserved
  words is found as its token and any other word is found
  exactly if it was handed out as a name.  So the words are
  counted by the distinct names, and no name is reserved.  A
  word that is handed out comes from a run of letters,
  digits and underscores that is as long as can be, without
  the digits it starts with.
-/
theorem words_exact
    (text : String)
    (calls : List Call) :
    let l := after text calls
    let seen := names (handed text calls)
    (∀ k : Keyword,
      l.word? k.spelling = some (.keyword k)) ∧
    (∀ p : Primitive,
      l.word? p.spelling = some (.typeName p)) ∧
    (∀ b : Bool, l.word? (toString b) = some (.boolean b)) ∧
    (∀ w, ¬ IsReserved w →
      l.word? w = if w ∈ seen then some (.identifier w) else
        none) ∧
    l.wordCount = 14 + seen.dedup.length ∧
    (∀ w ∈ seen, ¬ IsReserved w) ∧
    ∀ call t, (l.perform call).1 = some (.ok t) → t.IsWord →
      ∃ before run behind, text.toList = before ++ run ++
        behind ∧ EndsApart before ∧
          (∀ c ∈ run, isWordPart c = true) ∧
          (∀ c ∈ behind.head?, isWordPart c = false) ∧
            (l.perform call).2.position =
              (before ++ run).length ∧
              t =
                .ofWord
                  (String.ofList
                    (run.dropWhile Char.isDigit)) := by
  intro l seen
  have hHolds : Holds seen l.words := holds_after text calls
  have hLookup : ∀ w, l.word? w = _ := hHolds.lookup_eq
  refine ⟨?_, ?_, ?_, ?_, hHolds.length_eq, ?_, ?_⟩
  · intro k
    rw [hLookup, lookup_keyword, Option.some_or]
  · intro p
    rw [hLookup, lookup_primitive, Option.some_or]
  · intro b
    rw [hLookup, lookup_boolean, Option.some_or]
  · intro w hFree
    rw [hLookup, Token.lookup_of_free hFree, Option.none_or]
  · intro w hSeen hReserved
    rcases isReserved_lookup hReserved with ⟨t, hFound⟩
    cases hFound.symm.trans (hHolds.free w hSeen)
  · intro call t hHanded hWord
    have hStart : StandsApart text.toList (ofText text) :=
      ⟨[], standsBehind_ofText text,
        .inl (EndsApart.fresh (by simp [EndsApart]))⟩
    rcases hStart.performAll calls with
      ⟨taken, hBehind, hApart⟩
    rcases next_of_perform hHanded with ⟨hToken, hMark⟩
    rw [position, hMark]
    exact hBehind.knows.turns.word_run hBehind hApart
      hToken hWord

/- A name behind digits, which are a number of their own. -/
theorem words_exact_sample :
    let l :=
      after "int a 12b" [.next, .next, .hasToken, .next]
    l.word? "int" = some (.typeName .int) ∧
      l.wordCount = 15 ∧ (l.perform .iterate).1 =
        some (.ok (.identifier "b")) ∧
      ∃ before run behind, "int a 12b".toList = before ++
        run ++ behind ∧ EndsApart before ∧
          .identifier "b" =
            Token.ofWord
              (String.ofList
                (run.dropWhile Char.isDigit)) := by
  intro l
  have hHanded : (l.perform .iterate).1 =
    some (.ok (.identifier "b")) := rfl
  rcases words_exact "int a 12b"
    [.next, .next, .hasToken, .next] with
    ⟨-, hTypes, -, -, hCount, -, hRuns⟩
  rcases hRuns .iterate _ hHanded trivial with
    ⟨before, run, behind, hText, hBefore, -, -, -, hToken⟩
  exact ⟨hTypes .int, hCount, hHanded, before, run, behind,
    hText, hBefore, hToken⟩

end Lexer

end Bracketry
