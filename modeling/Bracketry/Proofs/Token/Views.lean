import Bracketry.Proofs.Token.Stream

/-
  This file shows that looking at a lexer does not change
  the tokens that are read from it.

  Asking whether a token remains skips what stands before
  the token, or takes nothing if that cannot be done.
  Either way all tokens and lines that follow are the same
  as without the question.  An iteration sees the same
  tokens up to the first fault.

  Main declarations:
    * `Lexer.iterates` and `Lexer.given`
    * `Lexer.Knows.iterates` and `Lexer.views_faithful`
-/

namespace Bracketry

/- Behind what was skipped there is nothing more to skip. -/
theorem skipTrivia_again
    {kind : Trivia}
    {m m' : Mark}
    {text rest : List Char}
    (hSkip : skipTrivia kind m text = (none, m', rest)) :
    skipTrivia .blank m' rest = (none, m', rest) := by
  fun_induction skipTrivia kind m text with
  | case4 m c behind hLine hBlock hBlank =>
      cases hSkip
      exact skipTrivia_start _
        (mt (isBlank_iff c).mpr hBlank) hLine hBlock
  | case9 opened m => cases hSkip
  | case10 kind m hKind =>
      cases hSkip
      rfl
  | case1 m behind ih => exact ih hSkip
  | case2 m behind ih => exact ih hSkip
  | case3 m c behind _ _ _ ih => exact ih hSkip
  | case5 m behind ih => exact ih hSkip
  | case6 m c behind _ ih => exact ih hSkip
  | case7 opened m behind ih => exact ih hSkip
  | case8 opened m c behind _ ih => exact ih hSkip

namespace Lexer

/- A word is read where it stands, wherever the lexer is. -/
theorem scanWord_at
    (l : Lexer)
    (here : Mark)
    (text : List Char)
    (m : Mark)
    (cs : List Char) :
    { l with mark := here, rest := text }.scanWord m cs =
      l.scanWord m cs := by
  rw [scanWord_eq, scanWord_eq]
  have hWord : ∀ spelling,
      { l with mark := here, rest := text }.word? spelling =
        l.word? spelling := fun _ => rfl
  unfold intern
  rw [hWord]
  cases l.word?
    (String.ofList (cs.takeWhile isWordPart)) <;> rfl

variable {l l' : Lexer}

/- What was found to stand before a token is skipped. -/
theorem hasToken_of_skip
    {m : Mark}
    {rest : List Char}
    (hSkip : skipTrivia .blank l.mark l.rest =
      (none, m, rest)) :
    l.hasToken =
      (!rest.isEmpty,
        { l with mark := m, rest := rest }) := by
  rw [hasToken, hSkip]

/- What cannot be skipped is left as it is. -/
theorem hasToken_of_fault
    {fault : LexFault}
    {m : Mark}
    {rest : List Char}
    (hSkip : skipTrivia .blank l.mark l.rest =
      (some fault, m, rest)) :
    l.hasToken = (true, l) := by
  rw [hasToken, hSkip]

/- The next token is the same behind the question for it. -/
theorem next_hasToken
    (l : Lexer) :
    l.hasToken.2.next = l.next := by
  rcases hSkip : skipTrivia .blank l.mark l.rest with
    ⟨_ | fault, m, rest⟩
  · have hAgain := skipTrivia_again hSkip
    rw [hasToken_of_skip hSkip]
    cases rest with
    | nil =>
        rw [next_of_end hSkip]
        exact next_of_end hAgain
    | cons c rest =>
        rw [next_of_first hSkip,
          next_of_first
            (l := { l with mark := m, rest := c :: rest })
              hAgain,
          scanWord_at]
        rfl
  · rw [hasToken_of_fault hSkip]

/- Asking twice is asking once. -/
theorem hasToken_hasToken
    (l : Lexer) :
    l.hasToken.2.hasToken.2 = l.hasToken.2 := by
  rcases hSkip : skipTrivia .blank l.mark l.rest with
    ⟨_ | fault, m, rest⟩
  · rw [hasToken_of_skip hSkip]
    exact congrArg Prod.snd (hasToken_of_skip
      (l := { l with mark := m, rest := rest })
        (skipTrivia_again hSkip))
  · rw [hasToken_of_fault hSkip]
    exact congrArg Prod.snd (hasToken_of_fault hSkip)

/- A token remains unless the end of the text comes next. -/
theorem Knows.hasToken_iff
    (hKnows : l.Knows) :
    l.hasToken.1 = true ↔ l.next.1 ≠ .ok .endOfFile := by
  rcases hSkip : skipTrivia .blank l.mark l.rest with
    ⟨_ | fault, m, rest⟩
  · rw [hasToken_of_skip hSkip]
    cases rest with
    | nil =>
        rw [next_of_end hSkip]
        simp [accept]
    | cons c rest =>
        refine iff_of_true rfl fun hEnd => ?_
        have hNone := hSkip.symm.trans
          (hKnows.turns.skipTrivia_eq hEnd).2
        cases congrArg (fun out => out.2.2) hNone
  · rw [hasToken_of_fault hSkip, next_of_fault hSkip]
    simp [accept]

theorem Knows.hasToken
    (hKnows : l.Knows) :
    l.hasToken.2.Knows := by
  rcases hSkip : skipTrivia .blank l.mark l.rest with
    ⟨_ | fault, m, rest⟩
  · rw [hasToken_of_skip hSkip]
    exact hKnows
  · rw [hasToken_of_fault hSkip]
    exact hKnows

/- What a lexer can be asked for. -/
inductive Query where
| next
| hasToken
| word (spelling : String)

/- What it replies; a token comes with the line reached. -/
inductive Reply where
| read (outcome : Except LexFault Token) (line : Nat)
| hasToken (remains : Bool)
| word (found : Option Token)

/- Whether a token is asked for. -/
def Query.isNext : Query → Bool
| .next => true
| _ => false

/- Whether a token, or a fault, is replied. -/
def Reply.isRead : Reply → Bool
| .read _ _ => true
| _ => false

/- A lexer is asked once. -/
def ask
    (l : Lexer) :
    Query → Reply × Lexer
| .next => (.read l.next.1 l.next.2.line, l.next.2)
| .hasToken => (.hasToken l.hasToken.1, l.hasToken.2)
| .word spelling => (.word (l.word? spelling), l)

/- A lexer is asked again and again. -/
def askAll : Lexer → List Query → List Reply × Lexer
| l, [] => ([], l)
| l, query :: rest =>
    let first := l.ask query
    let others := first.2.askAll rest
    (first.1 :: others.1, others.2)

theorem Knows.askAll
    (hKnows : l.Knows)
    (queries : List Query) :
    (l.askAll queries).2.Knows := by
  induction queries generalizing l with
  | nil => exact hKnows
  | cons query rest ih =>
      cases query with
      | next => exact ih (hKnows.goes rfl).knows
      | hasToken => exact ih hKnows.hasToken
      | word spelling => exact ih hKnows

/- A lexer, perhaps asked for what remains. -/
def Views (l l' : Lexer) : Prop :=
  l' = l ∨ l' = l.hasToken.2

theorem Views.next
    (hViews : Views l l') :
    l'.next = l.next := by
  rcases hViews with rfl | rfl
  · rfl
  · exact l.next_hasToken

theorem Views.hasToken
    (hViews : Views l l') :
    Views l l'.hasToken.2 := by
  rcases hViews with rfl | rfl
  · exact .inr rfl
  · exact .inr l.hasToken_hasToken

/- Questions make no difference to the tokens. -/
theorem Views.askAll
    (hViews : Views l l')
    (queries : List Query) :
    (l'.askAll queries).1.filter Reply.isRead =
      (l.askAll (queries.filter Query.isNext)).1 := by
  induction queries generalizing l l' with
  | nil => rfl
  | cons query rest ih =>
      cases query with
      | next =>
          -- behind a token both lexers are one
          have hSame : l'.ask .next = l.ask .next := by
            rw [ask, ask, hViews.next]
          have hRest :
              Views (l.ask .next).2 (l'.ask .next).2 :=
            .inl (congrArg Prod.snd hSame)
          rw [List.filter_cons_of_pos rfl, Lexer.askAll,
            Lexer.askAll, List.filter_cons_of_pos rfl,
              ih hRest, hSame]
      | hasToken =>
          rw [List.filter_cons_of_neg Bool.false_ne_true,
            Lexer.askAll, List.filter_cons_of_neg
              Bool.false_ne_true]
          exact ih hViews.hasToken
      | word spelling =>
          rw [List.filter_cons_of_neg Bool.false_ne_true,
            Lexer.askAll, List.filter_cons_of_neg
              Bool.false_ne_true]
          exact ih hViews

/- What comes out of an iteration for some time. -/
def iterates : Nat → Lexer →
    List (Option (Except LexFault Token))
| 0, _ => []
| count + 1, l => l.iterate.1 :: iterates count l.iterate.2

/-
  Outcomes of reading up to the end of the text or, with it,
  the first fault.
-/
def given : List (Except LexFault Token) →
    List (Except LexFault Token)
| [] => []
| .ok .endOfFile :: _ => []
| .ok t :: rest => .ok t :: given rest
| .error fault :: _ => [.error fault]

/- Only an iteration remembers a fault. -/
theorem failed_next
    (l : Lexer) :
    l.next.2.failed = l.failed := by
  rcases hSkip : skipTrivia .blank l.mark l.rest with
    ⟨_ | fault, m, _ | ⟨c, rest⟩⟩
  · rw [next_of_end hSkip]
    rfl
  · rw [next_of_first hSkip]
    split
    · rfl
    split
    · rw [scanWord_eq]
      unfold intern
      cases l.word? (String.ofList
        ((c :: rest).takeWhile isWordPart)) <;> rfl
    split <;> rfl
  · rw [next_of_fault hSkip]
    rfl
  · rw [next_of_fault hSkip]
    rfl

section

variable {after : Lexer} {t : Token} {fault : LexFault}

theorem iterate_of_end
    (hFailed : l.failed = false)
    (hNext : l.next = (.ok .endOfFile, after)) :
    l.iterate = (none, after) := by
  rw [iterate, hFailed, hNext]
  rfl

theorem iterate_of_token
    (hFailed : l.failed = false)
    (hNext : l.next = (.ok t, after))
    (hToken : t ≠ .endOfFile) :
    l.iterate = (some (.ok t), after) := by
  rw [iterate, hFailed, hNext]
  cases t with
  | endOfFile => exact absurd rfl hToken
  | _ => rfl

theorem iterate_of_fault
    (hFailed : l.failed = false)
    (hNext : l.next = (.error fault, after)) :
    l.iterate =
      (some (.error fault),
        { after with failed := true }) := by
  rw [iterate, hFailed, hNext]
  rfl

end

theorem iterates_of_failed
    (count : Nat)
    (hFailed : l.failed = true) :
    l.iterates count = List.replicate count none := by
  have hIterate : l.iterate = (none, l) := if_pos hFailed
  induction count with
  | zero => rfl
  | succ count ih =>
      rw [iterates, hIterate, ih, List.replicate_succ]

theorem iterates_at_end
    (count : Nat)
    (hFailed : l.failed = false)
    (hRest : l.rest = []) :
    l.iterates count = List.replicate count none := by
  induction count generalizing l with
  | zero => rfl
  | succ count ih =>
      rcases next_at_end (l := l) (hRest ▸ .nil) with
        ⟨hEnd, hBehind⟩
      have hStill := l.failed_next.trans hFailed
      rw [iterates, iterate_of_end hFailed
        (Prod.ext hEnd rfl),
        ih hStill hBehind, List.replicate_succ]

/-
  An iteration gives what is read before the end of the
  text, up to and with the first fault, and then nothing any
  more.
-/
theorem Knows.iterates
    (hKnows : l.Knows)
    (hFailed : l.failed = false)
    (count : Nat) :
    l.iterates count =
      (given (l.nexts count)).map some ++
        List.replicate
          (count - (given (l.nexts count)).length)
            none := by
  induction count generalizing l with
  | zero => rfl
  | succ count ih =>
      rcases hNext : l.next with ⟨outcome, after⟩
      have hGoes := hKnows.goes hNext
      have hStill : after.failed = false := by
        rw [← hFailed, ← l.failed_next, hNext]
      rw [Lexer.nexts, hNext, Lexer.iterates]
      cases outcome with
      | error fault =>
          rw [iterate_of_fault hFailed hNext,
            iterates_of_failed count rfl]
          rfl
      | ok t =>
          by_cases hEnd : t = .endOfFile
          · subst hEnd
            rw [iterate_of_end hFailed hNext,
              iterates_at_end count hStill
                (hGoes.ended rfl)]
            rfl
          · have hGiven : ∀ rest, given (.ok t :: rest) =
                .ok t :: given rest := by
              intro rest
              cases t with
              | endOfFile => exact absurd rfl hEnd
              | _ => rfl
            rw [iterate_of_token hFailed hNext hEnd,
              ih hGoes.knows hStill,
              hGiven, List.length_cons,
                Nat.add_sub_add_right]
            rfl

/-
  The tokens and faults that are read from a text, with
  their lines, are the same with any questions between them.
  At any time a token remains exactly if the next one is not
  the end of the text.  An iteration gives what is read up
  to the end or the first fault, and nothing from there on.
-/
theorem views_faithful
    (text : String) :
    (∀ queries,
      ((ofText text).askAll queries).1.filter Reply.isRead =
        ((ofText text).askAll
          (queries.filter Query.isNext)).1) ∧
    (∀ queries,
      ((ofText text).askAll queries).2.hasToken.1 = true ↔
        ((ofText text).askAll queries).2.hasToken.2.next.1 ≠
          .ok .endOfFile) ∧
    ∀ count,
      (ofText text).iterates count =
        (given ((ofText text).nexts count)).map some ++
          List.replicate
            (count -
              (given ((ofText text).nexts count)).length)
                none := by
  have hKnows := knows_ofText text
  refine ⟨Views.askAll (.inl rfl), ?_, hKnows.iterates rfl⟩
  intro queries
  rw [next_hasToken]
  exact (hKnows.askAll queries).hasToken_iff

end Lexer

end Bracketry
