import Bracketry.Proofs.Token.Spelling

/-
  This file says how far the scanners go, and how little of
  the text they look at.

  Every scanner takes some characters off the text and moves
  the mark past just these.  What it takes is settled by
  those characters and the two behind them.

  Main declarations:
    * `Skipped` and `Scan.Takes`
    * `scanNumber_settles` and `scanString_settles`
-/

namespace Bracketry

variable {c : Char} {t : Token} {text : List Char}
variable {word : String}
variable (m : Mark)

namespace Mark

@[simp] theorem position_pastAll
    (cs : List Char) :
    (m.pastAll cs).position = m.position + cs.length := by
  induction cs generalizing m with
  | nil => rfl
  | cons c cs ih =>
      rw [pastAll_cons, ih, List.length_cons]
      exact Nat.succ_add_eq_add_succ _ _

theorem line_pastAll
    (cs : List Char) :
    (m.pastAll cs).line = m.line + cs.count '\n' := by
  induction cs generalizing m with
  | nil => rfl
  | cons c cs ih =>
      rw [pastAll_cons, ih, List.count_cons, past]
      by_cases hEnd : c = '\n'
      · simp only [hEnd, if_true, BEq.rfl]
        omega
      · simp [hEnd]

theorem line_le_pastAll
    (cs : List Char) :
    m.line ≤ (m.pastAll cs).line := by
  rw [line_pastAll]
  exact Nat.le_add_right _ _

end Mark

/-
  A step of reading, started at a mark, takes the front of
  the text, and takes and says the same in front of any text
  that starts with the next two characters.
-/
def Settles
    {α : Type}
    (scan : List Char → α × Mark × List Char)
    (m : Mark)
    (text : List Char) : Prop :=
  ∃ taken, text = taken ++ (scan text).2.2 ∧
    (scan text).2.1 = m.pastAll taken ∧
      ∀ next rest, (scan text).2.2 = next ++ rest →
        2 ≤ next.length →
          ∀ other, scan (taken ++ (next ++ other)) =
          ((scan text).1, (scan text).2.1, next ++ other)

namespace Settles

variable {α : Type}
    {scan inner : List Char → α × Mark × List Char}
variable {m : Mark} {text : List Char} {a : α} {β : Type}

/- At the end of the text nothing is left to look at. -/
theorem of_end
    (hScan : scan text = (a, m.pastAll text, [])) :
    Settles scan m text := by
  refine ⟨text, ?_, ?_, ?_⟩
  · rw [hScan, List.append_nil]
  · rw [hScan]
  · intro next rest hNext hTwo
    rw [hScan] at hNext
    have hNil := (List.append_eq_nil_iff.mp hNext.symm).1
    rw [hNil] at hTwo
    cases hTwo

/- A step may take characters and go on as another. -/
theorem extend
    (front : List Char)
    (hInner : Settles inner (m.pastAll front) text)
    (hStep : ∀ more, more.take 2 = text.take 2 →
      scan (front ++ more) = inner more) :
    Settles scan m (front ++ text) := by
  rcases hInner with ⟨taken, hText, hMark, hOther⟩
  have hScan : scan (front ++ text) = inner text :=
    hStep text rfl
  refine ⟨front ++ taken, ?_, ?_, ?_⟩
  · rw [hScan, List.append_assoc, ← hText]
  · rw [hScan, hMark, Mark.pastAll_append]
  · intro next rest hNext hTwo other
    rw [hScan] at hNext
    rw [hScan, List.append_assoc, hStep, hOther next rest
      hNext hTwo other]
    -- the text that follows starts alike for two characters
    have hLength : 2 ≤ (taken ++ next).length := by
      rw [List.length_append]
      exact Nat.le_add_left_of_le hTwo
    rw [hText, hNext, ← List.append_assoc,
      ← List.append_assoc,
      List.take_append_of_le_length hLength,
      List.take_append_of_le_length hLength]

/- The same of one character. -/
theorem cons
    (hInner : Settles inner (m.past c) text)
    (hStep : ∀ more, more.take 2 = text.take 2 →
      scan (c :: more) = inner more) :
    Settles scan m (c :: text) :=
  extend [c] hInner hStep

/- The same of two characters. -/
theorem pair
    {c d : Char}
    (hInner : Settles inner (m.pastAll [c, d]) text)
    (hStep : ∀ more, scan (c :: d :: more) = inner more) :
    Settles scan m (c :: d :: text) :=
  extend [c, d] hInner fun more _ => hStep more

/- A step may be followed by another one. -/
theorem bind
    {both : List Char → β × Mark × List Char}
    (second : List Char → β × Mark × List Char)
    (hFirst : Settles scan m text)
    (hSecond :
      Settles second (scan text).2.1 (scan text).2.2)
    (hBoth : ∀ cs rest,
      scan cs = ((scan text).1, (scan text).2.1, rest) →
      rest.take 2 = (scan text).2.2.take 2 →
        both cs = second rest) :
    Settles both m text := by
  rcases hFirst with ⟨taken, hText, hMark, hOther⟩
  rcases hSecond with ⟨more, hRest, hMark₂, hOther₂⟩
  have hScan : both text = second (scan text).2.2 :=
    hBoth text _ rfl rfl
  refine ⟨taken ++ more, ?_, ?_, ?_⟩
  · rw [hScan, List.append_assoc, ← hRest, ← hText]
  · rw [hScan, hMark₂, hMark, Mark.pastAll_append]
  · intro next rest hNext hTwo other
    rw [hScan] at hNext
    have hLength : 2 ≤ (more ++ next).length := by
      rw [List.length_append]
      exact Nat.le_add_left_of_le hTwo
    have hBehind : (scan text).2.2 = (more ++ next) ++
        rest := by
      rw [List.append_assoc, ← hNext, ← hRest]
    have hSame :=
      hOther (more ++ next) rest hBehind hLength other
    rw [hScan, List.append_assoc, ← List.append_assoc more]
    rw [hBoth _ _ hSame, List.append_assoc]
    · exact hOther₂ next rest hNext hTwo other
    · rw [hBehind, List.take_append_of_le_length hLength,
        List.take_append_of_le_length hLength]

/- A step that takes nothing more. -/
theorem stop
    (hScan : ∀ next rest other, text = next ++ rest →
      2 ≤ next.length →
        scan (next ++ other) = (a, m, next ++ other))
    (hText : scan text = (a, m, text)) :
    Settles scan m text := by
  refine ⟨[], ?_, ?_, ?_⟩
  · rw [hText, List.nil_append]
  · rw [hText, Mark.pastAll_nil]
  · intro next rest hNext hTwo other
    rw [hText] at hNext
    rw [hText, List.nil_append]
    exact hScan next rest other hNext hTwo

/- A step that takes nothing looks at nothing. -/
theorem done
    (a : α) :
    Settles (fun cs => (a, m, cs)) m text :=
  .stop (fun _ _ _ _ _ => rfl) rfl

/- What a step says may be put in other words. -/
theorem map
    {after : List Char → β × Mark × List Char}
    (f : α → β)
    (hScan : Settles scan m text)
    (hAfter : ∀ cs,
      after cs = (f (scan cs).1, (scan cs).2)) :
    Settles after m text := by
  rcases hScan with ⟨taken, hText, hMark, hOther⟩
  refine ⟨taken, ?_, ?_, ?_⟩
  · rw [hAfter]
    exact hText
  · rw [hAfter]
    exact hMark
  · intro next rest hNext hTwo other
    rw [hAfter text] at hNext
    rw [hAfter, hAfter text, hOther next rest hNext
      hTwo other]

end Settles

------------------------------------------------------------
-- Scanners
------------------------------------------------------------

/- Trivia is skipped to where a token starts. -/
theorem skipTrivia_settles
    (kind : Trivia)
    (m : Mark)
    (text : List Char) :
    Settles (skipTrivia kind m) m text := by
  fun_induction skipTrivia kind m text with
  | case1 m rest ih => exact ih.pair fun _ => rfl
  | case2 m rest ih => exact ih.pair fun _ => rfl
  | case3 m c rest _ _ hBlank ih =>
      have hSlash : c ≠ '/' := by
        rintro rfl
        cases hBlank
      refine ih.cons fun more _ => ?_
      rw [skipTrivia, if_pos hBlank]
      · exact fun _ hEq => absurd hEq hSlash
      · exact fun _ hEq => absurd hEq hSlash
  | case4 m c rest hLine hBlock hBlank =>
      have hStart := mt (isBlank_iff c).mpr hBlank
      refine .stop ?_
        (skipTrivia_start m hStart hLine hBlock)
      intro next behind other hText hTwo
      rcases next with _ | ⟨d, _ | ⟨e, next⟩⟩
      · cases hTwo
      · exact absurd hTwo (Nat.not_succ_le_self 1)
      · -- what could start a comment lies within the two
        -- characters
        cases hText
        refine skipTrivia_start m hStart ?_ ?_
        · rintro behind' hSlash hEq
          cases hEq
          exact hLine _ hSlash rfl
        · rintro behind' hSlash hEq
          cases hEq
          exact hBlock _ hSlash rfl
  | case5 m rest ih => exact ih.cons fun _ _ => rfl
  | case6 m c rest hEnd ih =>
      refine ih.cons fun more _ => ?_
      rw [skipTrivia, if_neg hEnd]
  | case7 opened m rest ih => exact ih.pair fun _ => rfl
  | case8 opened m c rest hOpen ih =>
      refine ih.cons fun more hAlike => ?_
      rw [skipTrivia]
      rintro behind hStar rfl
      cases rest with
      | nil => cases hAlike
      | cons d rest =>
          cases List.head_eq_of_cons_eq hAlike
          exact hOpen rest hStar rfl
  | case9 opened m => exact .of_end rfl
  | case10 kind m hKind =>
      refine .of_end (a := none) ?_
      rw [skipTrivia]
      · rfl
      · exact hKind

/- Text that opens and never closes. -/
inductive Unclosed : LexCause → List Char → Prop
| comment {body : List Char}
    (hBody : ¬ ['*', '/'] <:+: body) :
    Unclosed .openComment ('/' :: '*' :: body)
| string {chars body : List Char}
    (hQuoted : Quoted chars body) :
    Unclosed .openString ('"' :: body)
| escape {chars body : List Char}
    (hQuoted : Quoted chars body) :
    Unclosed .openString ('"' :: (body ++ ['\\']))

/- What may end a text: a gap, or a line comment. -/
inductive LastGap : List Char → Prop
| closed {gap : List Char}
    (hGap : Gap gap) :
    LastGap gap
| comment {gap body : List Char}
    (hGap : Gap gap)
    (hBody : '\n' ∉ body) :
    LastGap (gap ++ '/' :: '/' :: body)

/-
  What skipping comes to: a token starts behind a gap, or
  the text ends in one, or a comment behind it is never
  closed.
-/
inductive Skipped
    (m : Mark)
    (text : List Char) :
    Option LexFault × Mark × List Char → Prop
| start {gap rest : List Char} {c : Char}
    (hGap : Gap gap)
    (hText : text = gap ++ c :: rest) :
    Skipped m text (none, m.pastAll gap, c :: rest)
| ended
    (hLast : LastGap text) :
    Skipped m text (none, m.pastAll text, [])
| opened {gap rest : List Char}
    (hGap : Gap gap)
    (hOpen : Unclosed .openComment rest)
    (hText : text = gap ++ rest) :
    Skipped m text
      (some ⟨.openComment, (m.pastAll gap).line⟩,
        m.pastAll text, [])

section

variable {m : Mark} {text : List Char}
variable {out : Option LexFault × Mark × List Char}

/- More of a gap may stand in front. -/
theorem Skipped.behind
    (front : List Char)
    (hFront : ∀ gap, Gap gap → Gap (front ++ gap))
    (hSkipped : Skipped (m.pastAll front) text out) :
    Skipped m (front ++ text) out := by
  cases hSkipped with
  | start hGap hText =>
      rw [← Mark.pastAll_append]
      exact .start (hFront _ hGap)
        (by rw [hText, List.append_assoc])
  | ended hLast =>
      rw [← Mark.pastAll_append]
      cases hLast with
      | closed hGap =>
          exact .ended (.closed (hFront _ hGap))
      | comment hGap hBody =>
          rw [← List.append_assoc]
          exact .ended (.comment (hFront _ hGap) hBody)
  | opened hGap hOpen hText =>
      rw [← Mark.pastAll_append, ← Mark.pastAll_append]
      exact .opened (hFront _ hGap) hOpen
        (by rw [hText, List.append_assoc])

/- What skipping comes to inside a comment. -/
def Trivia.Skips
    (m : Mark)
    (text : List Char)
    (out : Option LexFault × Mark × List Char) :
    Trivia → Prop
| .blank => Skipped m text out
| .lineComment =>
    ('\n' ∉ text ∧ out = (none, m.pastAll text, [])) ∨
      ∃ body rest, '\n' ∉ body ∧
        text = (body ++ ['\n']) ++ rest ∧
        Skipped (m.pastAll (body ++ ['\n'])) rest out
| .blockComment opened =>
    (¬ ['*', '/'] <:+: text ∧
      out =
        (some ⟨.openComment, opened⟩, m.pastAll text, [])) ∨
      ∃ body rest, ¬ ['*', '/'] <:+: body ∧
        text = (body ++ ['*', '/']) ++ rest ∧
          Skipped (m.pastAll (body ++ ['*', '/'])) rest out

/- A character in front does not end a comment. -/
theorem not_infix_cons
    (hFirst : ∀ behind, c = '*' → text = '/' :: behind →
      False)
    (hText : ¬ ['*', '/'] <:+: text) :
    ¬ ['*', '/'] <:+: c :: text := by
  rw [List.infix_cons_iff, not_or]
  refine ⟨?_, hText⟩
  rintro ⟨behind, hEq⟩
  cases hEq
  exact hFirst behind rfl rfl

end

theorem skipTrivia_skips
    (kind : Trivia)
    (m : Mark)
    (text : List Char) :
    kind.Skips m text (skipTrivia kind m text) := by
  fun_induction skipTrivia kind m text with
  | case1 m rest ih =>
      rcases ih with
        ⟨hBody, hEnd⟩ | ⟨body, behind, hBody, rfl, hSkipped⟩
      · rw [hEnd]
        exact .ended (.comment .nil hBody)
      · refine Skipped.behind
          ('/' :: '/' :: (body ++ ['\n'])) ?_ hSkipped
        intro gap hGap
        rw [List.cons_append, List.cons_append,
          List.append_assoc]
        exact .lineComment hBody hGap
  | case2 m rest ih =>
      rcases ih with
        ⟨hBody, hEnd⟩ | ⟨body, behind, hBody, rfl, hSkipped⟩
      · rw [hEnd]
        exact .opened .nil (.comment hBody) rfl
      · refine Skipped.behind
          ('/' :: '*' :: (body ++ ['*', '/'])) ?_ hSkipped
        intro gap hGap
        rw [List.cons_append, List.cons_append,
          List.append_assoc]
        exact .blockComment hBody hGap
  | case3 m c rest _ _ hBlank ih =>
      exact ih.behind [c] fun gap hGap =>
        .blank ((isBlank_iff c).mp hBlank) hGap
  | case4 m c rest hLine hBlock hBlank =>
      exact .start .nil rfl
  | case5 m rest ih =>
      exact .inr ⟨[], rest, List.not_mem_nil, rfl, ih⟩
  | case6 m c rest hEnd ih =>
      rcases ih with
        ⟨hBody, hOut⟩ | ⟨body, behind, hBody, rfl, hSkipped⟩
      · refine .inl ⟨?_, hOut⟩
        exact List.not_mem_cons_of_ne_of_not_mem
          (Ne.symm hEnd) hBody
      · refine .inr ⟨c :: body, behind, ?_, rfl, hSkipped⟩
        exact List.not_mem_cons_of_ne_of_not_mem
          (Ne.symm hEnd) hBody
  | case7 opened m rest ih =>
      exact .inr ⟨[], rest, by simp, rfl, ih⟩
  | case8 opened m c rest hOpen ih =>
      rcases ih with
        ⟨hBody, hOut⟩ | ⟨body, behind, hBody, rfl, hSkipped⟩
      · exact .inl ⟨not_infix_cons hOpen hBody, hOut⟩
      · refine .inr ⟨c :: body, behind,
          not_infix_cons ?_ hBody, rfl, hSkipped⟩
        rintro others hStar rfl
        exact hOpen _ hStar rfl
  | case9 opened m => exact .inl ⟨by simp, rfl⟩
  | case10 kind m hKind =>
      cases kind with
      | blank => exact .ended (.closed .nil)
      | lineComment => exact .inl ⟨List.not_mem_nil, rfl⟩
      | blockComment opened => exact (hKind opened rfl).elim

/- The outcome of reading a token, as a step. -/
def Scan.parts (s : Scan) :
    Except LexFault Token × Mark × List Char :=
  (s.outcome, s.mark, s.rest)

/- Characters of one kind are taken as far as they go. -/
theorem span_append
    {p : Char → Bool}
    {front rest : List Char}
    (hFront : ∀ c ∈ front, p c = true)
    (hStop : ∀ c ∈ rest.head?, p c = false) :
    (front ++ rest).takeWhile p = front ∧
      (front ++ rest).dropWhile p = rest := by
  rw [List.takeWhile_append_of_pos hFront,
    List.dropWhile_append_of_pos hFront]
  cases rest with
  | nil => simp
  | cons c rest =>
      have hNot : ¬ p c = true := by
        rw [hStop c rfl]
        exact Bool.false_ne_true
      rw [List.takeWhile_cons_of_neg hNot,
        List.dropWhile_cons_of_neg hNot, List.append_nil]
      exact ⟨rfl, rfl⟩

/- The first character not taken is of another kind. -/
theorem head?_dropWhile
    (p : Char → Bool)
    (text : List Char) :
    ∀ c ∈ (text.dropWhile p).head?, p c = false := by
  intro c hHead
  have hNot := List.head?_dropWhile_not p text
  rw [hHead] at hNot
  exact hNot

/- Texts that start alike have the same first character. -/
theorem head?_of_take
    {text other : List Char}
    (hAlike : other.take 2 = text.take 2) :
    other.head? = text.head? := by
  have hHead := congrArg List.head? hAlike
  simpa only [List.head?_take, Nat.reduceEqDiff, if_false]
    using hHead

theorem scanInteger_parts
    (digits rest : List Char) :
    (scanInteger m digits rest).parts =
      ((scanInteger m digits []).outcome, m, rest) := by
  unfold scanInteger
  dsimp only
  split <;> rfl

theorem scanNumber_integer
    {digits rest : List Char}
    (hDigits : ∀ c ∈ digits, c.isDigit = true)
    (hStop : ∀ c ∈ rest.head?, c.isDigit = false)
    (hPoint : ∀ c behind, rest = '.' :: c :: behind →
      c.isDigit = false) :
    scanNumber m (digits ++ rest) =
      scanInteger (m.pastAll digits) digits rest := by
  have hSpan := span_append hDigits hStop
  unfold scanNumber
  rw [hSpan.1, hSpan.2]
  dsimp only
  split
  · rename_i c behind
    rw [hPoint c behind rfl]
    rfl
  · rfl

theorem scanNumber_decimal
    {digits places rest : List Char}
    (hDigits : ∀ c ∈ digits, c.isDigit = true)
    (hPlaces : ∀ c ∈ places, c.isDigit = true)
    (hSome : places ≠ [])
    (hStop : ∀ c ∈ rest.head?, c.isDigit = false) :
    scanNumber m (digits ++ ('.' :: (places ++ rest))) =
      ⟨.ok (.decimal
        (Double.ofDecimal (digitsValue (digits ++ places))
          places.length)),
        (m.pastAll digits).pastAll ('.' :: places),
          rest⟩ := by
  have hPoint : ∀ c ∈ ('.' :: (places ++ rest)).head?,
      c.isDigit = false := by
    rintro _ ⟨⟩
    rfl
  have hSpan := span_append hDigits hPoint
  have hBehind := span_append hPlaces hStop
  unfold scanNumber
  rw [hSpan.1, hSpan.2]
  rcases List.exists_cons_of_ne_nil hSome with
    ⟨c, others, rfl⟩
  rw [List.cons_append] at hBehind ⊢
  change (if c.isDigit = true then _ else _) = _
  rw [if_pos (hPlaces c List.mem_cons_self), hBehind.1,
    hBehind.2]

/- A number has places behind a point, or it has none. -/
theorem number_cases
    (text : List Char) :
    ∃ digits behind, text = digits ++ behind ∧
      (∀ c ∈ digits, c.isDigit = true) ∧
      (∀ c ∈ behind.head?, c.isDigit = false) ∧
        ((∀ c rest, behind = '.' :: c :: rest →
          c.isDigit = false) ∨
          ∃ places rest, behind = '.' :: (places ++ rest) ∧
            places ≠ [] ∧ (∀ c ∈ places, c.isDigit = true) ∧
              ∀ c ∈ rest.head?, c.isDigit = false) := by
  refine ⟨_, _,
    (List.takeWhile_append_dropWhile
      (p := Char.isDigit)).symm,
    List.all_eq_true.mp List.all_takeWhile,
      head?_dropWhile _ _, ?_⟩
  generalize text.dropWhile Char.isDigit = behind
  by_cases hPoint : ∃ c rest, behind = '.' :: c :: rest ∧
    c.isDigit = true
  · rcases hPoint with ⟨c, rest, rfl, hFirst⟩
    refine .inr ⟨(c :: rest).takeWhile Char.isDigit,
      (c :: rest).dropWhile Char.isDigit, ?_, ?_,
      List.all_eq_true.mp List.all_takeWhile,
        head?_dropWhile _ _⟩
    · rw [List.takeWhile_append_dropWhile]
    · rw [List.takeWhile_cons_of_pos hFirst]
      exact List.cons_ne_nil _ _
  · left
    intro c rest hBehind
    rw [Bool.eq_false_iff]
    exact fun hDigit => hPoint ⟨c, rest, hBehind, hDigit⟩

/- A number ends before what is no digit. -/
theorem scanNumber_settles
    (text : List Char) :
    Settles (fun cs => (scanNumber m cs).parts) m text := by
  rcases number_cases text with
    ⟨digits, behind, rfl, hDigits, hStop, hPoint |
      ⟨places, rest, rfl, hSome, hPlaces, hEnd⟩⟩
  · have hInteger : Settles (fun cs =>
        (scanInteger (m.pastAll digits) digits cs).parts)
          (m.pastAll digits) behind := by
      simp only [scanInteger_parts]
      exact .done _
    refine hInteger.extend digits fun more hAlike => ?_
    rw [scanNumber_integer m hDigits
      (head?_of_take hAlike ▸ hStop)]
    rintro c rest rfl
    rcases behind with _ | ⟨d, _ | ⟨e, behind⟩⟩
    · cases hAlike
    · cases hAlike
    · cases hAlike
      exact hPoint c behind rfl
  · rw [← List.cons_append, ← List.append_assoc]
    refine (Settles.done (.ok (.decimal (Double.ofDecimal
      (digitsValue (digits ++ places))
        places.length)))).extend _ fun more hAlike => ?_
    rw [List.append_assoc, List.cons_append,
      scanNumber_decimal m hDigits
      hPlaces hSome (head?_of_take hAlike ▸ hEnd),
        Scan.parts,
      Mark.pastAll_append]

/- A string ends behind its closing quote. -/
theorem scanString_settles
    (opened : Nat)
    (read : List Char)
    (m : Mark)
    (text : List Char) :
    Settles (fun cs => (scanString opened read m cs).parts)
      m text := by
  fun_induction scanString opened read m text with
  | case1 read m rest =>
      exact (Settles.done _).cons fun _ _ => rfl
  | case2 read m => exact .of_end rfl
  | case3 read m c rest plain hPlain ih =>
      refine ih.pair fun more => ?_
      rw [scanString, hPlain]
  | case4 read m c rest hNone =>
      refine (Settles.done
        (.error ⟨.unknownEscape c, m.line⟩)).cons
        fun more hAlike => ?_
      cases more with
      | nil => cases hAlike
      | cons d more =>
          cases List.head_eq_of_cons_eq hAlike
          rw [scanString, hNone]
          rfl
  | case5 read m c rest hQuote hEnd hEscape ih =>
      have hBackslash : c ≠ '\\' := by
        rintro rfl
        cases rest with
        | nil => exact hEnd rfl rfl
        | cons d rest => exact hEscape d rest rfl rfl
      refine ih.cons fun more _ => ?_
      rw [scanString]
      · exact hQuote
      · exact fun hEq => absurd hEq hBackslash
      · exact fun _ _ hEq => absurd hEq hBackslash
  | case6 read m => exact .of_end rfl

theorem scanSingle_parts
    (c : Char)
    (rest : List Char) :
    (scanSingle m c rest).parts =
      ((scanSingle m c []).outcome, m.past c, rest) := by
  unfold scanSingle
  split <;> rfl

/- A symbol is taken whole, two characters before one. -/
theorem scanSymbol_settles
    (c : Char)
    (text : List Char) :
    Settles (fun cs => (scanSymbol m c cs).parts) (m.past c)
      text := by
  cases text with
  | nil =>
      refine .of_end (a := (scanSingle m c []).outcome) ?_
      rw [scanSymbol, scanSingle_parts]
      rfl
  | cons d behind =>
      cases hPair : Symbol.ofPair? c d with
      | some s =>
          refine (Settles.done (.ok (.symbol s))).cons
            fun more _ => ?_
          rw [scanSymbol, hPair]
          rfl
      | none =>
          have hSingle :
              ∀ more, (scanSymbol m c (d :: more)).parts =
              ((scanSingle m c []).outcome, m.past c,
                d :: more) := by
            intro more
            rw [scanSymbol, hPair, ← scanSingle_parts]
          refine .stop ?_ (hSingle behind)
          intro next rest other hText hTwo
          cases next with
          | nil => cases hTwo
          | cons e next =>
              cases hText
              exact hSingle (next ++ other)

------------------------------------------------------------
-- Outcomes of Scanners
------------------------------------------------------------

/- A token made of characters, a name of letters. -/
def Token.IsProper : Token → Prop
| .endOfFile => False
| .identifier name => ∀ c ∈ name.toList, isWordPart c = true
| _ => True

/-
  What is read that is neither a word nor the end of the
  text and leaves nothing open.
-/
def IsPlain : Except LexCause Token → Prop
| .ok (.integer _) => True
| .ok (.decimal _) => True
| .ok (.string _) => True
| .ok (.symbol _) => True
| .error (.unknownEscape _) => True
| .error (.unrecognized _) => True
| .error .largeInteger => True
| _ => False

/- A word goes on with what starts one, and digits. -/
theorem isWordPart_eq
    (c : Char) :
    isWordPart c = (isWordStart c || c.isDigit) :=
  Bool.or_right_comm _ _ _

/-
  Characters that are taken together and are not a word:
  they end in digits of their own or in no part of a word.
-/
inductive Piece : List Char → Prop
| number (front : List Char) {digits : List Char}
    (hFront : ∀ c ∈ front.getLast?, isWordPart c = false)
    (hSome : digits ≠ [])
    (hDigits : ∀ c ∈ digits, c.isDigit = true) :
    Piece (front ++ digits)
| other (front : List Char) {c : Char}
    (hLast : isWordPart c = false) :
    Piece (front ++ [c])

/- What is wrong is reported on the line of a mark. -/
def Mark.report
    (m : Mark)
    (item : Except LexCause Token) :
      Except LexFault Token :=
  item.mapError fun cause => ⟨cause, m.line⟩

/-
  What comes out of reading something else than a word: a
  piece of the text is taken, with the line reached if it is
  a fault; or the text is left open and taken whole, with
  the line it starts on.
-/
inductive Scan.Takes
    (m : Mark)
    (text : List Char) :
    Scan → Prop
| piece {taken behind : List Char}
    (item : Except LexCause Token)
    (hText : text = taken ++ behind)
    (hPiece : Piece taken)
    (hPlain : IsPlain item) :
    Takes m text
      ⟨(m.pastAll taken).report item, m.pastAll taken,
        behind⟩
| opened {cause : LexCause}
    (hOpen : Unclosed cause text) :
    Takes m text
      ⟨.error ⟨cause, m.line⟩, m.pastAll text, []⟩

theorem scanInteger_eq
    (digits rest : List Char) :
    ∃ item, IsPlain item ∧
      scanInteger m digits rest =
        ⟨m.report item, m, rest⟩ := by
  unfold scanInteger
  dsimp only
  split
  · exact ⟨.ok (.integer (digitsValue digits)),
      trivial, rfl⟩
  · exact ⟨.error .largeInteger, trivial, rfl⟩

theorem scanNumber_takes
    (rest : List Char)
    (hDigit : c.isDigit = true) :
    (scanNumber m (c :: rest)).Takes m (c :: rest) := by
  rcases number_cases (c :: rest) with
    ⟨digits, behind, hText, hDigits, hStop, hPoint |
      ⟨places, others, rfl, hSome, hPlaces, hEnd⟩⟩
  · have hSome : digits ≠ [] := by
      rintro rfl
      cases hText
      exact absurd hDigit
        (Bool.eq_false_iff.mp (hStop c rfl))
    rw [hText, scanNumber_integer m hDigits hStop hPoint]
    rcases scanInteger_eq (m.pastAll digits) digits
      behind with
      ⟨item, hPlain, hEq⟩
    rw [hEq]
    exact .piece item rfl
      (.number [] (by simp) hSome hDigits) hPlain
  · rw [hText, scanNumber_decimal m hDigits hPlaces hSome
      hEnd, ← Mark.pastAll_append]
    refine .piece (.ok _) (by simp) ?_ trivial
    rw [List.append_cons]
    exact .number _ (by simp [isWordPart]) hSome hPlaces

/- An escape is written in one way. -/
theorem escapeLetter?_of_unescape
    {c letter : Char}
    (hPlain : unescape? letter = some c) :
    escapeLetter? c = some letter := by
  unfold unescape? at hPlain
  split at hPlain <;> cases hPlain <;> rfl

/- How a string ends behind some of its text. -/
inductive StringEnd
    (opened : Nat)
    (m : Mark)
    (body : List Char) :
    List Char → Scan → Prop
| closed (value : String) (rest : List Char) :
    StringEnd opened m body (body ++ '"' :: rest)
      ⟨.ok (.string value), m.pastAll (body ++ ['"']), rest⟩
| unknown (c : Char) (rest : List Char) :
    StringEnd opened m body (body ++ '\\' :: c :: rest)
      ⟨.error ⟨.unknownEscape c,
          (m.pastAll (body ++ ['\\'])).line⟩,
        m.pastAll (body ++ ['\\']), c :: rest⟩
| missing :
    StringEnd opened m body body
      ⟨.error ⟨.openString, opened⟩, m.pastAll body, []⟩
| escape :
    StringEnd opened m body (body ++ ['\\'])
      ⟨.error ⟨.openString, opened⟩,
        m.pastAll (body ++ ['\\']), []⟩

theorem StringEnd.cons
    {opened : Nat}
    {body text : List Char}
    {scan : Scan}
    (h : StringEnd opened (m.past c) body text scan) :
    StringEnd opened m (c :: body) (c :: text) scan := by
  cases h with
  | closed value rest => exact .closed value rest
  | unknown d rest => exact .unknown d rest
  | missing => exact .missing
  | escape => exact .escape

/- A string is closed, or open, or has a bad escape. -/
theorem scanString_cases
    (opened : Nat)
    (read : List Char)
    (m : Mark)
    (text : List Char) :
    ∃ chars body, Quoted chars body ∧
      StringEnd opened m body text
        (scanString opened read m text) := by
  fun_induction scanString opened read m text with
  | case1 read m rest =>
      exact ⟨[], [], .nil, .closed _ rest⟩
  | case2 read m => exact ⟨[], [], .nil, .escape⟩
  | case3 read m c rest plain hPlain ih =>
      rcases ih with ⟨chars, body, hQuoted, hEnd⟩
      have hLetter := escapeLetter?_of_unescape hPlain
      exact ⟨_, _, .escaped hLetter hQuoted, hEnd.cons.cons⟩
  | case4 read m c rest hNone =>
      exact ⟨[], [], .nil, .unknown c rest⟩
  | case5 read m c rest hQuote hEnd hEscape ih =>
      have hBackslash : c ≠ '\\' := by
        rintro rfl
        cases rest with
        | nil => exact hEnd rfl rfl
        | cons d rest => exact hEscape d rest rfl rfl
      rcases ih with ⟨chars, body, hQuoted, hEnd⟩
      exact ⟨_, _, .raw hQuote hBackslash hQuoted,
        hEnd.cons⟩
  | case6 read m => exact ⟨[], [], .nil, .missing⟩

theorem scanString_takes
    (text : List Char) :
    (scanString m.line [] (m.past '"') text).Takes m
      ('"' :: text) := by
  rcases scanString_cases m.line [] (m.past '"') text with
    ⟨chars, body, hQuoted, hEnd⟩
  generalize scanString m.line [] (m.past '"') text =
    scan at *
  cases hEnd with
  | closed value rest =>
      exact .piece (.ok (.string value)) (by simp)
        (.other ('"' :: body) rfl) trivial
  | unknown c rest =>
      exact .piece (.error (.unknownEscape c)) (by simp)
        (.other ('"' :: body) rfl) trivial
  | missing => exact .opened (.string hQuoted)
  | escape => exact .opened (.escape hQuoted)

theorem scanSingle_takes
    (rest : List Char)
    (hPart : isWordPart c = false) :
    (scanSingle m c rest).Takes m (c :: rest) := by
  unfold scanSingle
  split
  · rename_i s _
    exact .piece (.ok (.symbol s)) rfl (.other [] hPart)
      trivial
  · exact .piece (.error (.unrecognized c)) rfl
      (.other [] hPart) trivial

theorem scanSymbol_takes
    (rest : List Char)
    (hPart : isWordPart c = false) :
    (scanSymbol m c rest).Takes m (c :: rest) := by
  unfold scanSymbol
  split
  · rename_i d behind
    split
    · rename_i s hPair
      have hLast : isWordPart d = false := by
        unfold Symbol.ofPair? at hPair
        split at hPair <;> first | rfl | cases hPair
      exact .piece (.ok (.symbol s)) rfl (.other [c] hLast)
        trivial
    · exact scanSingle_takes m _ hPart
  · exact scanSingle_takes m _ hPart

theorem Piece.ne_nil
    {taken : List Char}
    (hPiece : Piece taken) :
    taken ≠ [] := by
  cases hPiece with
  | number front hFront hSome hDigits =>
      exact List.append_ne_nil_of_right_ne_nil _ hSome
  | other front hLast =>
      exact List.append_ne_nil_of_right_ne_nil _
        (List.cons_ne_nil _ _)

theorem Unclosed.ne_nil
    {cause : LexCause}
    (hOpen : Unclosed cause text) :
    text ≠ [] := by
  cases hOpen <;> exact List.cons_ne_nil _ _

theorem isPlain_proper
    (hPlain : IsPlain (.ok t)) :
    t.IsProper := by
  cases t <;> trivial

namespace Scan.Takes

variable {m : Mark} {text : List Char} {s : Scan}

/- At least one character is taken. -/
theorem takes_some
    (hTakes : s.Takes m text) :
    ∃ taken, taken ≠ [] ∧ text = taken ++ s.rest ∧
      s.mark = m.pastAll taken := by
  cases hTakes with
  | piece item hText hPiece hPlain =>
      exact ⟨_, hPiece.ne_nil, hText, rfl⟩
  | opened hOpen =>
      exact ⟨text, hOpen.ne_nil,
        (List.append_nil text).symm, rfl⟩

theorem proper
    (hTakes : s.Takes m text)
    (hToken : s.outcome = .ok t) :
    t.IsProper := by
  cases hTakes with
  | piece item hText hPiece hPlain =>
      cases item with
      | ok token =>
          cases hToken
          exact isPlain_proper hPlain
      | error cause => cases hToken
  | opened hOpen => cases hToken

/- A fault is reported on a line that was reached. -/
theorem reaches
    {fault : LexFault}
    (hTakes : s.Takes m text)
    (hFault : s.outcome = .error fault) :
    m.line ≤ fault.line ∧ fault.line ≤ s.mark.line := by
  cases hTakes with
  | @piece taken _ item hText hPiece hPlain =>
      cases item with
      | ok token => cases hFault
      | error cause =>
          cases hFault
          exact ⟨m.line_le_pastAll taken, Nat.le_refl _⟩
  | opened hOpen =>
      cases hFault
      exact ⟨Nat.le_refl _, m.line_le_pastAll text⟩

end Scan.Takes

/- A boolean, a keyword or the name of a type. -/
theorem Token.reserved_cases
    (hMem : (word, t) ∈ reserved) :
    (∃ b, t = .boolean b) ∨ (∃ k, t = .keyword k) ∨
      ∃ p, t = .typeName p := by
  rcases List.mem_append.mp hMem with hFront | hType
  · rcases List.mem_append.mp hFront with hBool | hKeyword
    · simp only [List.mem_cons, List.not_mem_nil, or_false,
        Prod.mk.injEq] at hBool
      rcases hBool with ⟨-, rfl⟩ | ⟨-, rfl⟩
      · exact .inl ⟨true, rfl⟩
      · exact .inl ⟨false, rfl⟩
    · rcases List.mem_map.mp hKeyword with ⟨k, -, hEq⟩
      exact .inr (.inl ⟨k, (congrArg Prod.snd hEq).symm⟩)
  · rcases List.mem_map.mp hType with ⟨p, -, hEq⟩
    exact .inr (.inr ⟨p, (congrArg Prod.snd hEq).symm⟩)

theorem Token.mem_reserved
    (hLookup : reserved.lookup word = some t) :
    (word, t) ∈ reserved := by
  rcases List.lookup_eq_some_iff.mp hLookup with
    ⟨front, back, hSplit, -⟩
  rw [hSplit]
  exact List.mem_append_right _ List.mem_cons_self

/- A word is reserved, or a name of its own letters. -/
theorem Token.ofWord_isProper
    {letters : List Char}
    (hLetters : ∀ c ∈ letters, isWordPart c = true) :
    (Token.ofWord (String.ofList letters)).IsProper := by
  unfold ofWord
  cases hLookup :
    reserved.lookup (String.ofList letters) with
  | none =>
      change ∀ c ∈ (String.ofList letters).toList,
        isWordPart c = true
      rw [String.toList_ofList]
      exact hLetters
  | some t =>
      rcases reserved_cases (mem_reserved hLookup) with
        ⟨b, rfl⟩ | ⟨k, rfl⟩ | ⟨p, rfl⟩ <;> trivial

end Bracketry
