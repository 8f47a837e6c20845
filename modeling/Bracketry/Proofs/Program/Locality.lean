import Bracketry.Proofs.Program.Tracking
import Bracketry.Proofs.Token.Stream

/-
  This file shows that a fault is decided by the text read
  so far.

  When a program is rejected, the tokens up to the next one
  are settled by the text up to two characters behind it,
  and tokens behind that one have no part in the fault.
-/

namespace Bracketry

/- The tokens of a text lie on lines from one on. -/
theorem Parser.lined_ofStream
    {text : String}
    {stream : TokenStream}
    (hReads : TokenStream.Reads (.ofText text) stream) :
    (Parser.ofStream stream).Lined := by
  rcases List.pairwise_cons.mp hReads.lines_sorted with
    ⟨hPositive, hSorted⟩
  exact ⟨hSorted, hPositive,
    fun fault hFault => hReads.fault_line hFault⟩

/- Streams alike up to a token differ behind it. -/
theorem Parser.ofStream_divert
    {stream stream' : TokenStream}
    {before rest after : List Lexeme}
    {lexeme : Lexeme}
    (hLexemes : stream.lexemes = before ++ lexeme :: rest)
    (hOthers :
      stream'.lexemes = before ++ lexeme :: after) :
    Parser.ofStream stream' =
      (Parser.ofStream stream).divert rest.length
        { Parser.ofStream stream' with
          tokens := after } := by
  have hCount : (before ++ lexeme :: rest).length -
      rest.length = (before ++ [lexeme]).length := by
    simp only [List.length_append, List.length_cons,
      List.length_nil]
    omega
  unfold divert left ofStream
  rw [hOthers, hLexemes, hCount, List.append_cons before
    lexeme rest, List.take_left, ← List.append_cons]

/- Two texts with the same beginning are split alike. -/
theorem split_of_take_eq
    {text other taken rest : List Char}
    (hText : text = taken ++ rest)
    (hLong : taken.length + 2 ≤ text.length)
    (hAgree : other.take (taken.length + 2) =
      text.take (taken.length + 2)) :
    ∃ next back behind, rest = next ++ back ∧
      2 ≤ next.length ∧
        other = taken ++ (next ++ behind) := by
  refine ⟨rest.take 2, rest.drop 2,
    other.drop (taken.length + 2),
    (List.take_append_drop 2 rest).symm, ?_, ?_⟩
  · rw [hText, List.length_append] at hLong
    rw [List.length_take]
    omega
  · rw [hText, List.take_length_add_append] at hAgree
    calc
      other = other.take (taken.length + 2) ++
        other.drop (taken.length + 2) :=
        (List.take_append_drop _ other).symm
      _ = _ := by rw [hAgree, List.append_assoc]

namespace Program

/-
  The fault for which a text is rejected, with the number of
  characters read by then.
-/
def rejection (text : String) : Option (Fault × Nat) :=
  match read text with
  | .ok _ _ => none
  | .error fault s => some (fault, s.mark.position)

variable {source other : String} {fault : Fault}
    {s : Parser}

theorem rejection_eq_some
    {p : Nat} :
    rejection source = some (fault, p) ↔
      ∃ s, read source = .error fault s ∧
        s.mark.position = p := by
  unfold rejection
  cases read source with
  | ok program s => simp
  | error other s => simp [and_comm]

theorem compile_of_read
    (hRead : read source = .error fault s) :
    compile source = .error fault := by
  unfold compile Program.parse
  rw [hRead]
  rfl

/- A text is read from its first token on. -/
theorem onward_of_read
    (hRead : read source = .error fault s) :
    (Parser.ofStream (.ofText source)).Onward s ∧
      1 ≤ fault.line ∧ fault.line ≤ s.line := by
  have hLined :=
    Parser.lined_ofStream (TokenStream.reads_ofText source)
  have hTracks : Parse.Tracks True _ whole whole
      (.ofStream (.ofText source)) s := whole_tracks
  rcases hTracks.error (fun _ => hLined) fault s hRead with
    ⟨hTook, hReached, -⟩
  exact ⟨hTook.toOnward, hReached trivial⟩

/- The state left stands behind the text read. -/
theorem mark_of_read
    (hRead : read source = .error fault s) :
    ∃ taken rest, source.toList = taken ++ rest ∧
      s.mark = Mark.start.pastAll taken := by
  have hReads := TokenStream.reads_ofText source
  have hOnward := (onward_of_read hRead).1
  cases hTokens : s.tokens with
  | nil =>
      rcases hReads.final_mark with ⟨taken, hText, hMark⟩
      refine ⟨taken, _, hText, ?_⟩
      rw [Parser.mark, hTokens]
      exact hOnward.final.trans hMark
  | cons lexeme rest =>
      rcases hOnward.tokens with ⟨before, hBefore⟩
      rw [hTokens] at hBefore
      rcases hReads.agrees_at hBefore.symm with
        ⟨taken, behind, hText, hMark, -⟩
      refine ⟨taken, behind, hText, ?_⟩
      rw [Parser.mark, hTokens]
      exact hMark

/- A text alike up to a mark has what is decided. -/
theorem of_decided
    {mark : Mark}
    {kind : TokenStream → Prop}
    (hDecided :
      TokenStream.Reads.Decided (.ofText source) mark kind)
    (hLong : mark.position + 2 ≤ source.toList.length)
    (hAgree : other.toList.take (mark.position + 2) =
      source.toList.take (mark.position + 2)) :
    kind (.ofText other) := by
  rcases hDecided with
    ⟨taken, behind, hText, hMark, hAgrees⟩
  have hPosition : mark.position = taken.length := by
    rw [hMark, Mark.position_pastAll]
    exact Nat.zero_add _
  rw [hPosition] at hLong hAgree
  rcases split_of_take_eq hText hLong hAgree with
    ⟨next, back, after, hNext, hTwo, hSplit⟩
  have hReadsOther := TokenStream.reads_ofText other
  rw [Lexer.ofText, hSplit] at hReadsOther
  exact hAgrees next back after _ hNext hTwo hReadsOther

/- Where a token is next, the text up to it decides. -/
theorem read_of_token
    {lexeme : Lexeme}
    {rest : List Lexeme}
    (hRead : read source = .error fault s)
    (hTokens : s.tokens = lexeme :: rest)
    (hLong : s.mark.position + 2 ≤ source.toList.length)
    (hAgree : other.toList.take (s.mark.position + 2) =
      source.toList.take (s.mark.position + 2)) :
    ∃ t, read other = .error fault t ∧ t.mark = s.mark := by
  have hReads := TokenStream.reads_ofText source
  have hTracks : Parse.Tracks False _ whole whole
      (.ofStream (.ofText source))
        (.ofStream (.ofText other)) :=
    whole_tracks
  rcases hTracks.error False.elim fault s hRead with
    ⟨hTook, -, hOther⟩
  rcases hTook.tokens with ⟨before, hBefore⟩
  rw [hTokens] at hBefore
  have hAt : s.mark = lexeme.mark := by
    rw [Parser.mark, hTokens]
  rw [hAt] at hLong hAgree
  rcases of_decided (hReads.agrees_at hBefore.symm) hLong
    hAgree with
    ⟨after', hAfter⟩
  have hLess : rest.length < s.left := by
    rw [Parser.left, hTokens]
    exact Nat.lt_succ_self _
  refine ⟨_, hOther _ (.inr ⟨rest.length, _, hLess,
    Parser.ofStream_divert hBefore.symm hAfter, rfl⟩), ?_⟩
  rw [Parser.mark, Parser.tokens_divert _ hTokens hLess,
    hAt]

/- Where the lexer fails, so it does on the other text. -/
theorem read_of_fault
    {lexical : LexFault}
    (hRead : read source = .error fault s)
    (hTokens : s.tokens = [])
    (hFault : s.fault? = some lexical)
    (hLong : s.mark.position + 2 ≤ source.toList.length)
    (hAgree : other.toList.take (s.mark.position + 2) =
      source.toList.take (s.mark.position + 2)) :
    ∃ t, read other = .error fault t ∧ t.mark = s.mark := by
  have hReads := TokenStream.reads_ofText source
  have hOnward := (onward_of_read hRead).1
  have hAt :
      s.mark = (TokenStream.ofText source).final.mark := by
    rw [Parser.mark, hTokens]
    exact hOnward.final
  rw [hAt] at hLong hAgree
  rcases of_decided
    (hReads.agrees_of_fault
      (hOnward.fault.symm.trans hFault)) hLong hAgree
    with ⟨hLexemes, hSame, hFinal⟩
  refine ⟨s, ?_, rfl⟩
  rw [← hRead, read, read, Parser.ofStream, Parser.ofStream,
    hLexemes, hSame, hFinal]

/- Where the text is at its end, nothing can follow. -/
theorem position_of_ended
    (hRead : read source = .error fault s)
    (hTokens : s.tokens = [])
    (hFault : s.fault? = none) :
    s.mark.position = source.toList.length := by
  have hReads := TokenStream.reads_ofText source
  have hOnward := (onward_of_read hRead).1
  have hEnd :=
    hReads.rest_of_ended (hOnward.fault.symm.trans hFault)
  rcases hReads.final_mark with ⟨taken, hText, hMark⟩
  have hAll : source.toList = taken := by
    rw [hEnd, List.append_nil] at hText
    exact hText
  have hAt :
      s.mark = (TokenStream.ofText source).final.mark := by
    rw [Parser.mark, hTokens]
    exact hOnward.final
  rw [hAt, hMark, Mark.position_pastAll, hAll]
  exact Nat.zero_add _

/-
  A fault is decided by the text up to two characters behind
  the last token read, and lies on a line of it.  Whatever
  is written further behind, the program is rejected for the
  same fault at the same place.  This covers all faults but
  those at the end of the text, where no two characters
  follow: one token is missing there, or a string or comment
  is open.
-/
theorem fault_decided_by_text
    {p : Nat}
    (hRejected : rejection source = some (fault, p))
    (hLong : p + 2 ≤ source.toList.length)
    (hAgree : other.toList.take (p + 2) =
      source.toList.take (p + 2)) :
    rejection other = some (fault, p) ∧
      compile other = .error fault ∧ 1 ≤ fault.line ∧
        fault.line ≤
          1 + (source.toList.take (p + 2)).count '\n' := by
  rcases rejection_eq_some.mp hRejected with ⟨s, hRead, rfl⟩
  have hOther : ∃ t, read other = .error fault t ∧
      t.mark = s.mark := by
    cases hTokens : s.tokens with
    | cons lexeme rest =>
        exact read_of_token hRead hTokens hLong hAgree
    | nil =>
        cases hFault : s.fault? with
        | some lexical =>
            exact read_of_fault hRead hTokens hFault
              hLong hAgree
        | none =>
            have hEnd :=
              position_of_ended hRead hTokens hFault
            omega
  rcases hOther with ⟨t, hReadOther, hSame⟩
  rcases (onward_of_read hRead).2 with ⟨hPositive, hLine⟩
  rcases mark_of_read hRead with ⟨taken, rest, hText, hMark⟩
  refine ⟨rejection_eq_some.mpr
    ⟨t, hReadOther, by rw [hSame]⟩,
    compile_of_read hReadOther, hPositive, hLine.trans ?_⟩
  rw [Parser.line, hMark, Mark.line_pastAll,
    Mark.position_pastAll, hText]
  refine Nat.add_le_add_left (List.Sublist.count_le '\n' ?_)
    _
  have hCount : Mark.start.position + taken.length + 2 =
    taken.length + 2 :=
    congrArg (· + 2) (Nat.zero_add _)
  rw [hCount, List.take_length_add_append]
  exact List.sublist_append_left _ _

/- Behind an undeclared name a comment may stay open. -/
theorem undeclared_decided :
    rejection "[int f]\n\x7b return x; \x7d" =
        some (⟨.undeclared "x", 2⟩, 18) ∧
      compile "[int f]\n\x7b return x; /* \x7d" =
        .error ⟨.undeclared "x", 2⟩ := by
  have hRejected :
      rejection "[int f]\n\x7b return x; \x7d" =
      some (⟨.undeclared "x", 2⟩, 18) := by
    decide +kernel
  exact ⟨hRejected,
    (fault_decided_by_text hRejected (by decide +kernel)
    (by decide +kernel)).2.1⟩

end Program

end Bracketry
