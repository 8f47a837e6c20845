import Bracketry.Proofs.Token.Views

/-
  This file says where a lexer stands after any calls.

  Whatever was called, the lexer stands behind a front of
  the text, and its line counts the line ends in it.  What
  is handed out before the end takes at least one character,
  a fault as well.  What is left open is reported on the
  line where it was opened, any other fault on the line
  reached.

  Main declarations:
    * `Lexer.handed` and `Lexer.StandsBehind`
    * `Lexer.Turns.fault_line` and `Lexer.after_stands`
-/

namespace Bracketry

/- The line that a position of a text stands on. -/
def lineAt
    (text : List Char)
    (position : Nat) : Nat :=
  1 + (text.take position).count '\n'

/- A comment or a string that is never closed. -/
def LexCause.IsOpen : LexCause → Prop
| .openComment => True
| .openString => True
| _ => False

namespace Lexer

variable {out : Except LexFault Token × Lexer}

/- What a lexer can be called for. -/
inductive Call where
| next
| hasToken
| iterate

/- What a call hands out, and the lexer that is left. -/
def perform
    (l : Lexer) :
    Call → Option (Except LexFault Token) × Lexer
| .next => (some l.next.1, l.next.2)
| .hasToken => (none, l.hasToken.2)
| .iterate => l.iterate

/- Calls one after the other. -/
def performAll : Lexer → List Call →
    List (Except LexFault Token) × Lexer
| l, [] => ([], l)
| l, call :: rest =>
    let first := l.perform call
    let others := first.2.performAll rest
    (first.1.toList ++ others.1, others.2)

/- The lexer of a text after some calls. -/
def after
    (text : String)
    (calls : List Call) : Lexer :=
  ((ofText text).performAll calls).2

/- The tokens and faults that some calls hand out. -/
def handed
    (text : String)
    (calls : List Call) : List (Except LexFault Token) :=
  ((ofText text).performAll calls).1

variable {l : Lexer}

/-
  A call reads a token, which is handed out unless it is the
  end of an iteration, or it leaves the next token alone.
-/
theorem perform_cases
    (l : Lexer)
    (call : Call) :
    (∃ failed, (l.perform call).2 = { l.next.2 with
      failed := failed } ∧
      ((l.perform call).1 = some l.next.1 ∨
        (l.perform call).1 = none ∧
          l.next.1 = .ok .endOfFile)) ∨
    (l.perform call).1 = none ∧
      Views l (l.perform call).2 := by
  cases call with
  | next => exact .inl ⟨l.next.2.failed, rfl, .inl rfl⟩
  | hasToken => exact .inr ⟨rfl, .inr rfl⟩
  | iterate =>
      have hPerform : l.perform .iterate = l.iterate := rfl
      rw [hPerform]
      cases hFailed : l.failed with
      | true =>
          have hIterate : l.iterate = (none, l) :=
            if_pos hFailed
          exact .inr ⟨congrArg Prod.fst hIterate,
            .inl (congrArg Prod.snd hIterate)⟩
      | false =>
          left
          rcases hNext : l.next with ⟨fault | t, behind⟩
          · rw [iterate_of_fault hFailed hNext]
            exact ⟨true, rfl, .inl rfl⟩
          by_cases hEnd : t = .endOfFile
          · subst hEnd
            rw [iterate_of_end hFailed hNext]
            exact ⟨behind.failed, rfl, .inr ⟨rfl, rfl⟩⟩
          · rw [iterate_of_token hFailed hNext hEnd]
            exact ⟨behind.failed, rfl, .inl rfl⟩

/- What is handed out was read. -/
theorem next_of_perform
    {call : Call}
    {outcome : Except LexFault Token}
    (hHanded : (l.perform call).1 = some outcome) :
    l.next.1 = outcome ∧
      (l.perform call).2.mark = l.next.2.mark := by
  rcases l.perform_cases call with
    ⟨failed, hAfter, hOut | ⟨hNone, -⟩⟩ | ⟨hNone, -⟩
  · rw [hAfter]
    exact ⟨Option.some.inj (hOut.symm.trans hHanded), rfl⟩
  · cases hNone.symm.trans hHanded
  · cases hNone.symm.trans hHanded

/- A lexer that stands behind some characters of a text. -/
structure StandsBehind
    (text taken : List Char)
    (l : Lexer) : Prop where
  knows : l.Knows
  text_eq : text = taken ++ l.rest
  mark_eq : l.mark = Mark.start.pastAll taken

theorem standsBehind_ofText
    (text : String) :
    StandsBehind text.toList [] (ofText text) :=
  ⟨knows_ofText text, rfl, rfl⟩

namespace StandsBehind

variable {text taken : List Char}

theorem position_eq
    (hStands : StandsBehind text taken l) :
    l.position = taken.length := by
  rw [position, hStands.mark_eq, Mark.position_pastAll]
  exact Nat.zero_add _

theorem take_position
    (hStands : StandsBehind text taken l) :
    text.take l.position = taken := by
  rw [hStands.position_eq, hStands.text_eq, List.take_left]

theorem drop_position
    (hStands : StandsBehind text taken l) :
    text.drop l.position = l.rest := by
  rw [hStands.position_eq, hStands.text_eq, List.drop_left]

theorem line_eq
    (hStands : StandsBehind text taken l) :
    l.line = lineAt text l.position := by
  rw [lineAt, hStands.take_position, line, hStands.mark_eq,
    Mark.line_pastAll]
  rfl

theorem position_le
    (hStands : StandsBehind text taken l) :
    l.position ≤ text.length := by
  rw [hStands.position_eq, hStands.text_eq,
    List.length_append]
  exact Nat.le_add_right _ _

theorem move
    {more : List Char}
    {l' : Lexer}
    (hStands : StandsBehind text taken l)
    (hKnows : l'.Knows)
    (hRest : l.rest = more ++ l'.rest)
    (hMark : l'.mark = l.mark.pastAll more) :
    StandsBehind text (taken ++ more) l' := by
  refine ⟨hKnows, ?_, ?_⟩
  · rw [hStands.text_eq, hRest, List.append_assoc]
  · rw [hMark, hStands.mark_eq, Mark.pastAll_append]

/- A token is read, or what stands before it is skipped. -/
theorem perform
    (hStands : StandsBehind text taken l)
    (call : Call) :
    ∃ more, StandsBehind text (taken ++ more)
      (l.perform call).2 := by
  rcases l.perform_cases call with ⟨failed, hAfter, -⟩ |
    ⟨-, hSame | hAsked⟩
  · have hGoes :=
      hStands.knows.goes (Prod.mk.eta (p := l.next)).symm
    rcases hGoes.takes with ⟨more, hRest, hMark, -⟩
    rw [hAfter]
    exact ⟨more, hStands.move hGoes.knows hRest hMark⟩
  · rw [hSame]
    exact ⟨[], hStands.move hStands.knows rfl rfl⟩
  · rw [hAsked]
    rcases hSkip : skipTrivia .blank l.mark l.rest with
      ⟨_ | fault, m, rest⟩
    · rcases skipTrivia_settles .blank l.mark l.rest with
        ⟨more, hRest, hMark, -⟩
      rw [hSkip] at hRest hMark
      rw [hasToken_of_skip hSkip]
      exact ⟨more, hStands.move hStands.knows hRest hMark⟩
    · rw [hasToken_of_fault hSkip]
      exact ⟨[], hStands.move hStands.knows rfl rfl⟩

theorem performAll
    (hStands : StandsBehind text taken l)
    (calls : List Call) :
    ∃ more, StandsBehind text (taken ++ more)
      (l.performAll calls).2 := by
  induction calls generalizing l taken with
  | nil => exact ⟨[], hStands.move hStands.knows rfl rfl⟩
  | cons call rest ih =>
      rcases hStands.perform call with ⟨more, hFirst⟩
      rcases ih hFirst with ⟨others, hRest⟩
      exact ⟨more ++ others, List.append_assoc .. ▸ hRest⟩

end StandsBehind

theorem standsBehind_after
    (text : String)
    (calls : List Call) :
    ∃ taken, StandsBehind text.toList taken
      (after text calls) :=
  (standsBehind_ofText text).performAll calls

/- Something is taken unless it is the end of the text. -/
theorem Turns.position_lt
    (hTurns : l.Turns out)
    (hOut : out.1 ≠ .ok .endOfFile) :
    l.position < out.2.position := by
  cases hTurns with
  | ended hSkip => exact absurd rfl hOut
  | @word gap letters behind hGap hRest hFirst
      hLetters hStop =>
        rcases hFirst with ⟨c, hHead, -⟩
        have hSome := List.length_pos_of_mem
          (List.mem_of_mem_head? hHead)
        change l.mark.position <
          (l.mark.pastAll (gap ++ letters)).position
        rw [Mark.position_pastAll, List.length_append]
        omega
  | @scanned gap text s hGap hRest hTakes =>
      rcases hTakes.takes_some with ⟨taken, hSome, -, hMark⟩
      have hPos := List.length_pos_iff.mpr hSome
      change l.mark.position < s.mark.position
      rw [hMark, Mark.position_pastAll,
        Mark.position_pastAll]
      omega

theorem Knows.perform_lt
    {call : Call}
    {outcome : Except LexFault Token}
    (hKnows : l.Knows)
    (hHanded : (l.perform call).1 = some outcome)
    (hOutcome : outcome ≠ .ok .endOfFile) :
    l.position < (l.perform call).2.position := by
  rcases next_of_perform hHanded with ⟨rfl, hMark⟩
  rw [position, position, hMark]
  exact hKnows.turns.position_lt hOutcome

/- The end of the text stays where it is. -/
theorem Knows.perform_at_end
    (hKnows : l.Knows)
    (call : Call)
    (hEnd : l.next.1 = .ok .endOfFile) :
    (l.perform call).2.next.1 = .ok .endOfFile := by
  rcases l.perform_cases call with
    ⟨failed, hAfter, -⟩ | ⟨-, hViews⟩
  · have hRest : l.next.2.rest = [] :=
      (hKnows.goes (Prod.mk.eta (p := l.next)).symm).ended
        hEnd
    rw [hAfter]
    exact (next_at_end
      (l := { l.next.2 with failed := failed })
      (hRest ▸ .nil)).1
  · rw [hViews.next, hEnd]

variable {text taken : List Char}

/- The end is read behind the last character, past a gap. -/
theorem StandsBehind.position_next
    (hStands : StandsBehind text taken l)
    (hEnd : l.next.1 = .ok .endOfFile) :
    l.next.2.position = text.length ∧
      LastGap (text.drop l.position) := by
  constructor
  · have hRest : l.next.2.rest = [] :=
      (hStands.knows.goes
        (Prod.mk.eta (p := l.next)).symm).ended hEnd
    rcases hStands.perform .next with ⟨more, hNext⟩
    have hAll : text = (taken ++ more) ++ l.next.2.rest :=
      hNext.text_eq
    rw [hRest, List.append_nil] at hAll
    rw [hAll]
    exact hNext.position_eq
  · rw [hStands.drop_position]
    exact (hStands.knows.turns.skipTrivia_eq hEnd).1

theorem StandsBehind.performAll_at_end
    (hStands : StandsBehind text taken l)
    (calls : List Call)
    (hEnd : l.next.1 = .ok .endOfFile) :
    (l.performAll calls).2.next.1 = .ok .endOfFile := by
  induction calls generalizing l taken with
  | nil => exact hEnd
  | cons call rest ih =>
      rcases hStands.perform call with ⟨more, hFirst⟩
      exact ih hFirst
        (hStands.knows.perform_at_end call hEnd)

/- What is handed out takes a character. -/
theorem StandsBehind.perform_le
    (hStands : StandsBehind text taken l)
    (call : Call)
    (hMore : l.next.1 ≠ .ok .endOfFile) :
    l.position + (l.perform call).1.toList.length ≤
      (l.perform call).2.position := by
  cases hHanded : (l.perform call).1 with
  | none =>
      rcases hStands.perform call with ⟨more, hFirst⟩
      rw [hStands.position_eq, hFirst.position_eq,
        List.length_append]
      exact Nat.le_add_right _ _
  | some outcome =>
      rw [(next_of_perform hHanded).1] at hMore
      exact hStands.knows.perform_lt hHanded hMore

theorem StandsBehind.performAll_le
    (hStands : StandsBehind text taken l)
    (calls : List Call)
    (hMore : (l.performAll calls).2.next.1 ≠
      .ok .endOfFile) :
    l.position + (l.performAll calls).1.length ≤
      (l.performAll calls).2.position := by
  induction calls generalizing l taken with
  | nil => exact Nat.le_refl _
  | cons call rest ih =>
      rcases hStands.perform call with ⟨more, hFirst⟩
      have hCall := hStands.perform_le call fun hEnd =>
        hMore
          (hStands.performAll_at_end (call :: rest) hEnd)
      have hRest := ih hFirst hMore
      rw [Lexer.performAll]
      dsimp only
      rw [List.length_append]
      omega

/- As many calls as there are characters come to the end. -/
theorem next_after_of_le
    {text : String}
    {calls : List Call}
    (hMany : text.length ≤ (handed text calls).length) :
    (after text calls).next.1 = .ok .endOfFile := by
  by_contra hMore
  have hStart := standsBehind_ofText text
  have hCount := hStart.performAll_le calls hMore
  rcases standsBehind_after text calls with ⟨taken, hStands⟩
  -- all characters are taken
  have hAll : text.toList.length ≤ taken.length := by
    rw [String.length_toList, ← hStands.position_eq]
    exact hMany.trans ((Nat.le_add_left _ _).trans hCount)
  have hRest : (after text calls).rest = [] := by
    rw [hStands.text_eq, List.length_append] at hAll
    exact List.eq_nil_of_length_eq_zero (by omega)
  exact hMore (next_at_end (hRest ▸ .nil)).1

/- An iteration gives nothing at the end of the text. -/
theorem iterate_at_end
    (hEnd : l.next.1 = .ok .endOfFile) :
    l.iterate.1 = none := by
  cases hFailed : l.failed with
  | true => exact congrArg Prod.fst (if_pos hFailed)
  | false => rw [iterate_of_end hFailed (Prod.ext hEnd rfl)]

------------------------------------------------------------
-- Lines of Faults
------------------------------------------------------------

/-
  What is left open is reported where it was opened, behind
  a gap; any other fault on the line reached.
-/
theorem Turns.fault_line
    {fault : LexFault}
    (hTurns : l.Turns out)
    (hFault : out.1 = .error fault) :
    (fault.cause.IsOpen ∧ ∃ gap opened,
      Gap gap ∧ l.rest = gap ++ opened ∧
      Unclosed fault.cause opened ∧
        fault.line = (l.mark.pastAll gap).line) ∨
    ¬ fault.cause.IsOpen ∧ fault.line = out.2.line := by
  cases hTurns with
  | ended hSkip => cases hFault
  | word hGap hRest hFirst hLetters hStop => cases hFault
  | scanned hGap hRest hTakes =>
      cases hTakes with
      | piece item hText hPiece hPlain =>
          right
          cases item with
          | ok t => cases hFault
          | error cause =>
              cases hFault
              refine ⟨?_, rfl⟩
              cases cause <;>
                first | exact id | exact hPlain.elim
      | opened hOpen =>
          left
          cases hFault
          refine ⟨?_, _, _, hGap, hRest, hOpen, rfl⟩
          cases hOpen <;> trivial

/- The same, by positions of the text. -/
theorem StandsBehind.fault_line
    {fault : LexFault}
    (hStands : StandsBehind text taken l)
    (hFault : l.next.1 = .error fault) :
    (fault.cause.IsOpen → ∃ opened, l.position ≤ opened ∧
      Gap ((text.take opened).drop l.position) ∧
        Unclosed fault.cause (text.drop opened) ∧
          fault.line = lineAt text opened) ∧
    (¬ fault.cause.IsOpen →
      fault.line = l.next.2.line) := by
  rcases hStands.knows.turns.fault_line hFault with
    ⟨hIs, gap, rest, hGap, hRest, hOpen,
      hLine⟩ | ⟨hNot, hLine⟩
  · refine ⟨fun _ => ?_, fun hNot => absurd hIs hNot⟩
    have hText : text = (taken ++ gap) ++ rest := by
      rw [hStands.text_eq, hRest, List.append_assoc]
    refine ⟨(taken ++ gap).length, ?_, ?_, ?_, ?_⟩
    · rw [hStands.position_eq, List.length_append]
      exact Nat.le_add_right _ _
    · rw [hText, List.take_left, hStands.position_eq,
        List.drop_left]
      exact hGap
    · rw [hText, List.drop_left]
      exact hOpen
    · rw [hLine, hStands.mark_eq, ← Mark.pastAll_append,
        Mark.line_pastAll, lineAt, hText, List.take_left]
      rfl
  · exact ⟨fun hIs => absurd hIs hNot, fun _ => hLine⟩

/- What is never closed is a fault, behind any gap. -/
theorem next_of_unclosed
    {gap opened : List Char}
    {cause : LexCause}
    (hGap : Gap gap)
    (hOpen : Unclosed cause opened)
    (hRest : l.rest = gap ++ opened) :
    l.next.1 =
      .error ⟨cause, (l.mark.pastAll gap).line⟩ := by
  have hString : ∀ {chars body tail : List Char},
      Quoted chars body → tail = [] ∨ tail = ['\\'] →
      opened = '"' :: (body ++ tail) → l.next.1 =
        .error
          ⟨.openString, (l.mark.pastAll gap).line⟩ := by
    rintro chars body tail hQuoted hTail rfl
    have hStart :
        l.rest = gap ++ ('"' :: (body ++ tail) ++ []) := by
      rw [List.append_nil, hRest]
    rw [next_of_start hGap hStart (by decide)
      (fun _ hEq => absurd hEq (by decide))
      (fun _ hEq => absurd hEq (by decide))]
    change (scanString _ [] _ _).outcome = _
    rw [List.append_nil, hQuoted.scanString_append]
    rcases hTail with rfl | rfl <;> rfl
  cases hOpen with
  | @comment body hBody =>
      rw [next, hRest, hGap.skipTrivia_append, skipTrivia]
      rcases skipTrivia_skips
          (.blockComment (l.mark.pastAll gap).line) _
            body with
        ⟨-, hOut⟩ | ⟨front, rest, -, hText, -⟩
      · rw [hOut]
        rfl
      · exact absurd ⟨front, rest, hText.symm⟩ hBody
  | string hQuoted =>
      exact hString hQuoted (.inl rfl) (by simp)
  | escape hQuoted => exact hString hQuoted (.inr rfl) rfl

/- The same, by positions of the text. -/
theorem StandsBehind.next_of_unclosed
    {opened : Nat}
    {cause : LexCause}
    (hStands : StandsBehind text taken l)
    (hBehind : l.position ≤ opened)
    (hGap : Gap ((text.take opened).drop l.position))
    (hOpen : Unclosed cause (text.drop opened)) :
    l.next.1 = .error ⟨cause, lineAt text opened⟩ := by
  have hFront :=
    List.take_append_drop l.position (text.take opened)
  rw [List.take_take, Nat.min_eq_left hBehind,
    hStands.take_position] at hFront
  have hRest : taken ++ l.rest =
      taken ++ ((text.take opened).drop l.position ++
        text.drop opened) := by
    rw [← List.append_assoc, hFront, List.take_append_drop,
      ← hStands.text_eq]
  rw [Lexer.next_of_unclosed hGap hOpen
    (List.append_cancel_left hRest), hStands.mark_eq,
    ← Mark.pastAll_append, hFront, Mark.line_pastAll]
  rfl

/-
  After any calls on a text the position is at most its
  length and the line counts the line ends before it.  What
  is handed out before the end, a token or a fault, moves
  the position on; the end is read behind the last
  character, past nothing but a gap.  So as many tokens and
  faults as there are characters come to the end.  A comment
  or a string that is never closed is reported, on the line
  where it is opened, and any other fault on the line
  reached.
-/
theorem after_stands
    (text : String)
    (calls : List Call) :
    let l := after text calls
    l.position ≤ text.length ∧
    l.line = lineAt text.toList l.position ∧
    (∀ call outcome, (l.perform call).1 = some outcome →
      outcome ≠ .ok .endOfFile →
        l.position < (l.perform call).2.position) ∧
    (l.next.1 = .ok .endOfFile →
      l.next.2.position = text.length ∧
        LastGap (text.toList.drop l.position)) ∧
    (text.length ≤ (handed text calls).length →
      l.next.1 = .ok .endOfFile ∧ l.iterate.1 = none) ∧
    (∀ cause opened, l.position ≤ opened →
      Gap ((text.toList.take opened).drop l.position) →
      Unclosed cause (text.toList.drop opened) →
        l.next.1 =
          .error ⟨cause, lineAt text.toList opened⟩) ∧
    ∀ call fault, (l.perform call).1 = some (.error fault) →
      (fault.cause.IsOpen → ∃ opened, l.position ≤ opened ∧
        Gap ((text.toList.take opened).drop l.position) ∧
          Unclosed fault.cause (text.toList.drop opened) ∧
            fault.line = lineAt text.toList opened) ∧
      (¬ fault.cause.IsOpen →
        fault.line = (l.perform call).2.line) := by
  intro l
  rcases standsBehind_after text calls with ⟨taken, hStands⟩
  refine ⟨?_, hStands.line_eq, ?_, ?_, ?_,
    fun _ _ => hStands.next_of_unclosed, ?_⟩
  · rw [← String.length_toList]
    exact hStands.position_le
  · intro call outcome hHanded hOutcome
    exact hStands.knows.perform_lt hHanded hOutcome
  · rw [← String.length_toList]
    exact hStands.position_next
  · intro hMany
    have hEnd := next_after_of_le hMany
    exact ⟨hEnd, iterate_at_end hEnd⟩
  · intro call fault hHanded
    rcases next_of_perform hHanded with ⟨hFault, hMark⟩
    rw [line, hMark]
    exact hStands.fault_line hFault

/- What is opened on the second line and never closed. -/
theorem after_stands_sample :
    (let l := after "x /*\n*/ \"a\nb\\" [.next, .hasToken];
      l.position = 8 ∧ l.line = 2 ∧
        (l.perform .iterate).1 =
          some (.error ⟨.openString, 2⟩) ∧
        l.position < (l.perform .iterate).2.position ∧
        ∃ opened, l.position ≤ opened ∧ 2 = lineAt
          "x /*\n*/ \"a\nb\\".toList opened) ∧
      (after "x\n /* y" [.next]).next.1 =
        .error ⟨.openComment, 2⟩ := by
  constructor
  · intro l
    have hFault : (l.perform .iterate).1 =
        some (.error ⟨.openString, 2⟩) := rfl
    rcases after_stands "x /*\n*/ \"a\nb\\"
      [.next, .hasToken] with
      ⟨-, -, hMoves, -, -, -, hLines⟩
    rcases (hLines .iterate _ hFault).1 trivial with
      ⟨opened, hLe, -, -, hLine⟩
    exact ⟨rfl, rfl, hFault,
      hMoves .iterate _ hFault (by rintro ⟨⟩), opened,
        hLe, hLine⟩
  · rcases after_stands "x\n /* y" [.next] with
      ⟨-, -, -, -, -, hReports, -⟩
    exact hReports .openComment 3 (by decide)
      (.blank (by decide) (.blank (by decide) .nil))
      (@Unclosed.comment [' ', 'y'] (by decide))

end Lexer

end Bracketry
