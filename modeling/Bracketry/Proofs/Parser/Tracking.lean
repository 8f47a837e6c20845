import Bracketry.Proofs.Parser
import Mathlib.Algebra.Ring.Nat

/-
  This file says how far reading goes and how little of the
  tokens it looks at.

  A step of reading only takes tokens from the front, and
  never the end of the file.  A fault is reported on a line
  that was reached.  On tokens that are the same up to the
  next one, another run of the step comes to the same.  As
  the number of tokens left bounds the loops, the other run
  is a step of its own.  Lines are looked at only where that
  is asked for.

  Main declarations:
    * `Parse.Tracks` and `Parse.Repeats`
    * `Parse.Tracks.advance` and `Parse.Repeats.tracks`
-/

namespace Bracketry

namespace Parser

variable {s s' t t' u u' : Parser} {n : Nat}

/- The second state has tokens of the first. -/
structure Onward (s t : Parser) : Prop where
  tokens : t.tokens <:+ s.tokens
  fault : t.fault? = s.fault?
  final : t.final = s.final

namespace Onward

theorem trans
    (hFirst : s.Onward t)
    (hSecond : t.Onward u) :
    s.Onward u :=
  ⟨hSecond.tokens.trans hFirst.tokens,
    hSecond.fault.trans hFirst.fault,
    hSecond.final.trans hFirst.final⟩

theorem left_le
    (hOnward : s.Onward t) :
    t.left ≤ s.left :=
  hOnward.tokens.length_le

end Onward

/- No end of the file lies between two states. -/
structure Took (s t : Parser) :
    Prop extends Onward s t where
  before : ∃ taken, s.tokens = taken ++ t.tokens ∧
    ∀ lexeme ∈ taken, lexeme.token ≠ .endOfFile

namespace Took

/- No token is taken while other things may change. -/
theorem of_eq
    (hTokens : t.tokens = s.tokens)
    (hFault : t.fault? = s.fault?)
    (hFinal : t.final = s.final) :
    s.Took t :=
  ⟨⟨hTokens ▸ List.suffix_refl _, hFault, hFinal⟩,
    [], hTokens.symm, List.forall_mem_nil _⟩

theorem refl :
    s.Took s :=
  of_eq rfl rfl rfl

theorem trans
    (hFirst : s.Took t)
    (hSecond : t.Took u) :
    s.Took u := by
  rcases hFirst.before with ⟨taken, hTokens, hTaken⟩
  rcases hSecond.before with ⟨others, hOthers, hMore⟩
  refine ⟨hFirst.toOnward.trans hSecond.toOnward,
    taken ++ others, ?_, ?_⟩
  · rw [hTokens, hOthers, List.append_assoc]
  · exact List.forall_mem_append.mpr ⟨hTaken, hMore⟩

end Took

------------------------------------------------------------
-- Lines
------------------------------------------------------------

/- The lines of the tokens left, and of the end. -/
def lines (s : Parser) : List Nat :=
  s.tokens.map Lexeme.line ++ [s.final.line]

/- Lines start at one and go up, also for the fault. -/
structure Lined (s : Parser) : Prop where
  sorted : s.lines.Pairwise (· ≤ ·)
  positive : ∀ line ∈ s.lines, 1 ≤ line
  fault : ∀ fault, s.fault? = some fault →
    1 ≤ fault.line ∧ fault.line ≤ s.final.line

theorem lines_eq
    (s : Parser) :
    ∃ rest, s.lines = s.line :: rest := by
  unfold lines line mark
  cases s.tokens with
  | nil => exact ⟨[], rfl⟩
  | cons lexeme rest => exact ⟨_, rfl⟩

theorem Onward.lines
    (hOnward : s.Onward t) :
    t.lines <:+ s.lines := by
  rcases hOnward.tokens with ⟨taken, hTaken⟩
  refine ⟨taken.map Lexeme.line, ?_⟩
  rw [Parser.lines, Parser.lines, hOnward.final, ← hTaken,
    List.map_append, List.append_assoc]

theorem Onward.lined
    (hOnward : s.Onward t)
    (hLined : s.Lined) :
    t.Lined := by
  refine ⟨?_, ?_, ?_⟩
  · exact hLined.sorted.sublist hOnward.lines.sublist
  · exact fun line hMem =>
      hLined.positive line
        (hOnward.lines.sublist.subset hMem)
  · rw [hOnward.fault, hOnward.final]
    exact hLined.fault

theorem Lined.line_pos
    (hLined : s.Lined) :
    1 ≤ s.line := by
  rcases s.lines_eq with ⟨rest, hLines⟩
  exact hLined.positive _ (hLines ▸ List.mem_cons_self)

/- Further on the line is no smaller. -/
theorem Onward.line_le
    (hOnward : s.Onward t)
    (hLined : s.Lined) :
    s.line ≤ t.line := by
  rcases s.lines_eq with ⟨rest, hLines⟩
  rcases t.lines_eq with ⟨others, hOthers⟩
  have hSorted := hLined.sorted
  have hMem : t.line ∈ s.lines :=
    hOnward.lines.sublist.subset
      (hOthers ▸ List.mem_cons_self)
  rw [hLines] at hSorted hMem
  rcases List.mem_cons.mp hMem with hEq | hLater
  · exact Nat.le_of_eq hEq.symm
  · exact (List.pairwise_cons.mp hSorted).1 _ hLater

/- Lines are in order if they matter. -/
def LinedIf
    (s : Parser)
    (P : Prop) : Prop :=
  P → s.Lined

/- A line has been reached, if lines matter. -/
def Reached
    (t : Parser)
    (P : Prop)
    (line : Nat) : Prop :=
  P → 1 ≤ line ∧ line ≤ t.line

variable {P : Prop}

/- Lines that were reached stay so. -/
theorem Reached.later
    {line : Nat}
    (hReached : s.Reached P line)
    (hLined : s.LinedIf P)
    (hTook : s.Took t) :
    t.Reached P line := fun hMatter =>
  ⟨(hReached hMatter).1,
    Nat.le_trans (hReached hMatter).2
      (hTook.line_le (hLined hMatter))⟩

namespace LinedIf

theorem onward
    (hLined : s.LinedIf P)
    (hTook : s.Took t) :
    t.LinedIf P :=
  fun hMatter => hTook.lined (hLined hMatter)

theorem here
    (hLined : s.LinedIf P) :
    s.Reached P s.line :=
  fun hMatter => ⟨(hLined hMatter).line_pos, Nat.le_refl _⟩

/- The line of a state stays reached. -/
theorem reached
    (hLined : s.LinedIf P)
    (hTook : s.Took t) :
    t.Reached P s.line :=
  hLined.here.later hLined hTook

theorem noted
    (hLined : s.LinedIf P)
    (hTook : s.Took t) :
    ∀ line ∈ [s.line], t.Reached P line :=
  List.forall_mem_singleton.mpr (hLined.reached hTook)

end LinedIf

/-
  Something was read: each token taken pays for sixteen, and
  the lines noted in what was read have been reached.
-/
structure Paid
    {α : Type}
    (P : Prop)
    (cost : α → Nat)
    (noted : α → List Nat)
    (s : Parser)
    (a : α)
    (t : Parser) : Prop where
  progress : t.left < s.left
  paid : cost a + 16 * t.left ≤ 16 * s.left
  lines : ∀ line ∈ noted a, t.Reached P line

/- The same of several things. -/
structure AllPaid
    {α : Type}
    (P : Prop)
    (cost : α → Nat)
    (noted : α → List Nat)
    (s : Parser)
    (items : List α)
    (t : Parser) : Prop where
  paid : (items.map cost).sum + 16 * t.left ≤ 16 * s.left
  lines : ∀ a ∈ items, ∀ line ∈ noted a, t.Reached P line

section

variable {α : Type} {cost : α → Nat} {noted : α → List Nat}
variable {a : α} {items : List α}

theorem AllPaid.nil :
    AllPaid P cost noted s [] s :=
  ⟨by simp, by simp⟩

/- What is paid is paid since an earlier state. -/
theorem Paid.since
    (hPaid : Paid P cost noted t a u)
    (hTook : s.Took t) :
    Paid P cost noted s a u := by
  have hProgress := hPaid.progress
  have hCost := hPaid.paid
  have hLeft := hTook.left_le
  exact ⟨by omega, by omega, hPaid.lines⟩

/- What is paid stays so when reading goes on. -/
theorem Paid.later
    (hPaid : Paid P cost noted s a t)
    (hLined : t.LinedIf P)
    (hTook : t.Took u) :
    Paid P cost noted s a u := by
  have hProgress := hPaid.progress
  have hCost := hPaid.paid
  have hLeft := hTook.left_le
  exact ⟨by omega, by omega, fun line hMem =>
    (hPaid.lines line hMem).later hLined hTook⟩

theorem AllPaid.since
    (hItems : AllPaid P cost noted t items u)
    (hTook : s.Took t) :
    AllPaid P cost noted s items u := by
  have hPaid := hItems.paid
  have hLeft := hTook.left_le
  exact ⟨by omega, hItems.lines⟩

theorem AllPaid.later
    (hItems : AllPaid P cost noted s items t)
    (hLined : t.LinedIf P)
    (hTook : t.Took u) :
    AllPaid P cost noted s items u := by
  have hPaid := hItems.paid
  have hLeft := hTook.left_le
  exact ⟨by omega, fun a hMem line hNoted =>
    (hItems.lines a hMem line hNoted).later hLined hTook⟩

theorem AllPaid.cons
    (hRest : AllPaid P cost noted t items u)
    (hFirst : Paid P cost noted s a t)
    (hLined : t.LinedIf P)
    (hTook : t.Took u) :
    AllPaid P cost noted s (a :: items) u := by
  have hPaid := hFirst.paid
  have hMore := hRest.paid
  refine ⟨?_, ?_⟩
  · rw [List.map_cons, List.sum_cons]
    omega
  · rw [List.forall_mem_cons]
    exact ⟨(hFirst.later hLined hTook).lines, hRest.lines⟩

end

/- The same with more ends of the file behind its tokens. -/
def padded
    (s : Parser)
    (n : Nat) : Parser :=
  { s with
    tokens :=
      s.tokens ++ List.replicate n ⟨.endOfFile, s.final⟩ }

/-
  All tokens but the last `n` are kept, and reading goes on
  as in another state.
-/
def divert
    (s : Parser)
    (n : Nat)
    (other : Parser) : Parser :=
  { s with
    tokens := s.tokens.take (s.left - n) ++ other.tokens
    fault? := other.fault?
    final := other.final }

/- What a step can see of a state without taking a token. -/
structure Alike (s s' : Parser) : Prop where
  lookahead : s'.lookahead = s.lookahead
  line : s'.line = s.line
  scope : s'.scope = s.scope
  function : s'.function = s.function
  loopDepth : s'.loopDepth = s.loopDepth

theorem padded_zero
    (s : Parser) :
    s.padded 0 = s := by
  unfold padded
  rw [List.replicate_zero, List.append_nil]

theorem left_padded
    (s : Parser)
    (n : Nat) :
    (s.padded n).left = s.left + n := by
  unfold padded left
  rw [List.length_append, List.length_replicate]

theorem alike_padded
    (s : Parser)
    (n : Nat) :
    s.Alike (s.padded n) := by
  have hNext : (s.padded n).lookahead = s.lookahead ∧
      (s.padded n).mark = s.mark := by
    unfold padded lookahead mark
    cases s.tokens with
    | nil => cases n <;> exact ⟨rfl, rfl⟩
    | cons lexeme rest => exact ⟨rfl, rfl⟩
  exact ⟨hNext.1, congrArg Mark.line hNext.2, rfl, rfl, rfl⟩

theorem left_divert
    (s : Parser)
    (n : Nat)
    (other : Parser) :
    (s.divert n other).left = s.left - n + other.left := by
  unfold divert left
  rw [List.length_append, List.length_take]
  omega

theorem tokens_divert
    {lexeme : Lexeme}
    {rest : List Lexeme}
    (other : Parser)
    (hTokens : s.tokens = lexeme :: rest)
    (hLess : n < s.left) :
    (s.divert n other).tokens =
      lexeme ::
        (rest.take (rest.length - n) ++ other.tokens) := by
  unfold left at hLess
  unfold divert left
  rw [hTokens, List.length_cons] at hLess ⊢
  have hSome : rest.length + 1 - n =
    (rest.length - n) + 1 := by omega
  rw [hSome]
  rfl

theorem alike_divert
    (other : Parser)
    (hLess : n < s.left) :
    s.Alike (s.divert n other) := by
  rcases List.exists_cons_of_ne_nil
    (List.length_pos_iff.mp (Nat.zero_lt_of_lt hLess)) with
      ⟨lexeme, rest, hTokens⟩
  have hOthers := tokens_divert other hTokens hLess
  refine ⟨?_, ?_, rfl, rfl, rfl⟩
  · unfold lookahead
    rw [hTokens, hOthers]
  · unfold line mark
    rw [hTokens, hOthers]

/- A change that does not depend on tokens behind. -/
structure Moves
    (s : Parser)
    (f : Parser → Parser) : Prop where
  took : s.Took (f s)
  padded : ∀ n, f (s.padded n) = (f s).padded n
  divert : ∀ n other, n < (f s).left →
    f (s.divert n other) = (f s).divert n other

/-
  A step that leads from `s` to `t` should lead from `s'` to
  `t'`: both have more ends of the file, which a fault at
  the end of the tokens leaves no room for, or both have
  other tokens behind the next one in `t`.
-/
def Follows (s s' t t' : Parser) : Prop :=
  (∃ n, (n = 0 ∨ s.fault? = none) ∧ s' = s.padded n ∧
    t' = t.padded n) ∨ ∃ n other, n < t.left ∧
      s' = s.divert n other ∧ t' = t.divert n other

namespace Follows

theorem alike
    (hFollows : Follows s s' t t')
    (hTook : s.Took t) :
    s.Alike s' := by
  rcases hFollows with
    ⟨n, -, rfl, -⟩ | ⟨n, other, hLess, rfl, -⟩
  · exact s.alike_padded n
  · exact alike_divert other
      (Nat.lt_of_lt_of_le hLess hTook.left_le)

/- As many tokens are taken on both ways. -/
theorem left_eq
    (hFollows : Follows s s' t t')
    (hTook : s.Took t) :
    t'.left = s'.left - (s.left - t.left) := by
  have hLe := hTook.left_le
  rcases hFollows with
    ⟨n, -, rfl, rfl⟩ | ⟨n, other, hLess, rfl, rfl⟩
  · rw [left_padded, left_padded]
    omega
  · rw [left_divert, left_divert]
    omega

/- The first step has its way, and then the second. -/
theorem split
    (hFollows : Follows s s' u u')
    (hFirst : s.Took t)
    (hSecond : t.Took u) :
    ∃ t', Follows s s' t t' ∧ Follows t t' u u' := by
  rcases hFollows with
    ⟨n, hRoom, rfl, rfl⟩ | ⟨n, other, hLess, rfl, rfl⟩
  · exact ⟨t.padded n, .inl ⟨n, hRoom, rfl, rfl⟩,
      .inl ⟨n, hFirst.fault ▸ hRoom, rfl, rfl⟩⟩
  · have hMore := Nat.lt_of_lt_of_le hLess hSecond.left_le
    exact ⟨t.divert n other,
      .inr ⟨n, other, hMore, rfl, rfl⟩,
      .inr ⟨n, other, hLess, rfl, rfl⟩⟩

/- Where nothing happens the ways end where they start. -/
theorem eq
    (hFollows : Follows s s' s t') :
    t' = s' := by
  rcases hFollows with
    ⟨n, -, rfl, rfl⟩ | ⟨n, other, -, rfl, rfl⟩ <;> rfl

end Follows

end Parser

------------------------------------------------------------
-- Steps on Other Tokens
------------------------------------------------------------

namespace Parse

variable {α β ι : Type}

/-
  A step takes tokens, and leads to a result and a state
  that are related, or to a fault on a line that was
  reached; and another step does the same from another
  state, if that has the same tokens as far as they are
  looked at.
-/
structure Tracks
    (P : Prop)
    (Q : α → Parser → Prop)
    (x x' : Parse α)
    (s s' : Parser) : Prop where
  ok : s.LinedIf P → ∀ a t, x s = .ok a t → s.Took t ∧
    Q a t ∧ ∀ t', Parser.Follows s s' t t' →
      x' s' = .ok a t'
  error : s.LinedIf P → ∀ fault t, x s = .error fault t →
    s.Took t ∧ t.Reached P fault.line ∧
      ∀ t', Parser.Follows s s' t t' →
        x' s' = .error fault t'

namespace Tracks

variable {P : Prop} {s s' : Parser}
variable {Q : α → Parser → Prop} {R : β → Parser → Prop}
variable {x x' : Parse α} {p : Prop} {fault : Parse PUnit}

theorem weaken
    {Q' : α → Parser → Prop}
    (hTracks : Tracks P Q' x x' s s')
    (hImp : ∀ a t, s.Took t → Q' a t → Q a t) :
    Tracks P Q x x' s s' := by
  refine ⟨?_, hTracks.error⟩
  intro hLined a t hOk
  rcases hTracks.ok hLined a t hOk with
    ⟨hTook, hResult, hOther⟩
  exact ⟨hTook, hImp a t hTook hResult, hOther⟩

/- What a step leads to may be said along with it. -/
theorem led
    {R : α → Context → Prop}
    (hTracks : Tracks P Q x x' s s')
    (hLeads : Leads (fun _ => True) s.context R x) :
    Tracks P (fun a t => Q a t ∧ R a t.context) x x'
      s s' := by
  refine ⟨?_, hTracks.error⟩
  intro hLined a t hOk
  rcases hTracks.ok hLined a t hOk with
    ⟨hTook, hResult, hOther⟩
  exact ⟨hTook, ⟨hResult, hLeads.of_ok s a t rfl hOk⟩,
    hOther⟩

/- A step may rely on the order of lines. -/
theorem lined
    (hTracks : s.LinedIf P → Tracks P Q x x' s s') :
    Tracks P Q x x' s s' :=
  ⟨fun hLined => (hTracks hLined).ok hLined,
    fun hLined => (hTracks hLined).error hLined⟩

/- Steps that come to the same may stand for each other. -/
theorem of_eq
    {y y' : Parse α}
    (hTracks : Tracks P Q y y' s s')
    (hFirst : x s = y s)
    (hSecond : s.Alike s' → x' s' = y' s') :
    Tracks P Q x x' s s' := by
  constructor
  · intro hLined a t hOk
    rw [hFirst] at hOk
    rcases hTracks.ok hLined a t hOk with
      ⟨hTook, hResult, hOther⟩
    refine ⟨hTook, hResult, ?_⟩
    intro t' hFollows
    rw [hSecond (hFollows.alike hTook)]
    exact hOther t' hFollows
  · intro hLined fault t hError
    rw [hFirst] at hError
    rcases hTracks.error hLined fault t hError with
      ⟨hTook, hPlaced, hOther⟩
    refine ⟨hTook, hPlaced, ?_⟩
    intro t' hFollows
    rw [hSecond (hFollows.alike hTook)]
    exact hOther t' hFollows

theorem pure
    {a : α}
    (hResult : Q a s) :
    Tracks P Q (pure a) (pure a) s s' := by
  constructor
  · rintro - _ _ ⟨⟩
    exact ⟨.refl, hResult,
      fun _ hFollows => hFollows.eq ▸ rfl⟩
  · rintro - _ _ ⟨⟩

theorem throw
    {fault : Fault}
    (hPlaced : s.Reached P fault.line) :
    Tracks P Q (throw fault) (throw fault) s s' := by
  constructor
  · rintro - _ _ ⟨⟩
  · rintro - _ _ ⟨⟩
    exact ⟨.refl, hPlaced,
      fun _ hFollows => hFollows.eq ▸ rfl⟩

/-
  The second step goes on where the first one ends.  Where
  the other run has no part in that, it is told as much
  about some state in which as many tokens are left.
-/
theorem bind
    {f f' : α → Parse β}
    (hFirst : Tracks P Q x x' s s')
    (hSecond : ∀ a t t', t.LinedIf P → s.Took t → Q a t →
      t'.left = s'.left - (s.left - t.left) →
        Tracks P R (f a) (f' a) t t') :
    Tracks P R (x >>= f) (x' >>= f') s s' := by
  have hSome : ∀ t : Parser, ∃ t' : Parser,
      t'.left = s'.left - (s.left - t.left) := fun t =>
    ⟨{ s' with tokens := s'.tokens.drop (s.left - t.left) },
      List.length_drop⟩
  refine .lined fun hLined => ?_
  cases hRun : x s with
  | ok a t =>
      rcases hFirst.ok hLined a t hRun with
        ⟨hTook, hResult, hOther⟩
      have hLined₁ := hLined.onward hTook
      have hBoth : (x >>= f) s = f a t :=
        Step.bind_of_ok hRun
      rcases hSome t with ⟨t', hLeft⟩
      have hOnly :=
        hSecond a t t' hLined₁ hTook hResult hLeft
      constructor
      · intro _ b u hOk
        rw [hBoth] at hOk
        rcases hOnly.ok hLined₁ b u hOk with
          ⟨hTook₂, hResult₂, -⟩
        refine ⟨hTook.trans hTook₂, hResult₂, ?_⟩
        intro u' hFollows
        rcases hFollows.split hTook hTook₂ with
          ⟨t₁, hTo, hFrom⟩
        rw [Step.bind_of_ok (hOther t₁ hTo)]
        exact ((hSecond a t t₁ hLined₁ hTook hResult
          (hTo.left_eq hTook)).ok hLined₁ b u hOk).2.2 u'
            hFrom
      · intro _ fault u hError
        rw [hBoth] at hError
        rcases hOnly.error hLined₁ fault u hError with
          ⟨hTook₂, hPlaced, -⟩
        refine ⟨hTook.trans hTook₂, hPlaced, ?_⟩
        intro u' hFollows
        rcases hFollows.split hTook hTook₂ with
          ⟨t₁, hTo, hFrom⟩
        rw [Step.bind_of_ok (hOther t₁ hTo)]
        exact ((hSecond a t t₁ hLined₁ hTook hResult
          (hTo.left_eq hTook)).error hLined₁ fault u
            hError).2.2 u' hFrom
  | error fault t =>
      rcases hFirst.error hLined fault t hRun with
        ⟨hTook, hPlaced, hOther⟩
      have hBoth : (x >>= f) s = .error fault t :=
        Step.bind_of_error hRun
      constructor
      · intro _ b u hOk
        rw [hBoth] at hOk
        cases hOk
      · intro _ _ u hError
        rw [hBoth] at hError
        cases hError
        refine ⟨hTook, hPlaced, ?_⟩
        intro t' hFollows
        exact Step.bind_of_error (hOther t' hFollows)

/- A step may look at the state it starts in. -/
theorem get
    {f f' : Parser → Parse α}
    (hNext : Tracks P Q (f s) (f' s') s s') :
    Tracks P Q (get >>= f) (get >>= f') s s' :=
  ⟨hNext.ok, hNext.error⟩

/- What is seen without a token is seen both ways. -/
theorem look
    {f f' : Parser → Parse α}
    (hNext : Tracks P Q (f s) (f' s) s s')
    (hSame : s.Alike s' → f' s' = f' s) :
    Tracks P Q (Bind.bind MonadState.get f)
      (Bind.bind MonadState.get f') s s' :=
  (hNext.of_eq rfl fun hAlike =>
    congrFun (hSame hAlike) s').get

theorem modify
    {f : Parser → Parser}
    (hMoves : s.Moves f) :
    Tracks P (fun _ t => t = f s) (modify f : Parse Unit)
      (modify f) s s' := by
  constructor
  · rintro - _ _ ⟨⟩
    refine ⟨hMoves.took, rfl, ?_⟩
    rintro t'
      (⟨n, -, rfl, rfl⟩ | ⟨n, other, hLess, rfl, rfl⟩)
    · exact congrArg (EStateM.Result.ok ())
        (hMoves.padded n)
    · exact congrArg (EStateM.Result.ok ())
        (hMoves.divert n other hLess)
  · rintro - _ _ ⟨⟩

/- A step may rely on what it sees, if both are one. -/
theorem of_alike
    (hTracks : ∀ u, s.Alike u → Tracks P Q x x s u) :
    Tracks P Q x x s s' := by
  have hSelf := hTracks s ⟨rfl, rfl, rfl, rfl, rfl⟩
  constructor
  · intro hLined a t hOk
    rcases hSelf.ok hLined a t hOk with ⟨hTook, hResult, -⟩
    refine ⟨hTook, hResult, ?_⟩
    intro t' hFollows
    exact ((hTracks s' (hFollows.alike hTook)).ok hLined a t
      hOk).2.2 t' hFollows
  · intro hLined fault t hError
    rcases hSelf.error hLined fault t hError with
      ⟨hTook, hPlaced, -⟩
    refine ⟨hTook, hPlaced, ?_⟩
    intro t' hFollows
    exact ((hTracks s' (hFollows.alike hTook)).error hLined
      fault t hError).2.2 t' hFollows

/- Names may be added while the tokens stay. -/
theorem onScope
    {line : Nat}
    {step : EStateM Fault Scope α}
    (hRefuses : Refuses line step)
    (hLine : s.Reached P line) :
    Tracks P
      (fun a t => ∃ scope, step s.scope = .ok a scope ∧
        t = { s with scope := scope })
      (onScope step) (onScope step) s s' := by
  have hOk : ∀ {u : Parser} {a scope},
      step u.scope = .ok a scope →
        Parse.onScope step u =
          .ok a { u with scope := scope } := by
    intro u a scope hStep
    unfold Parse.onScope
    rw [hStep]
  have hError : ∀ {u : Parser} {fault scope},
      step u.scope = .error fault scope →
        Parse.onScope step u =
          .error fault { u with scope := scope } := by
    intro u fault scope hStep
    unfold Parse.onScope
    rw [hStep]
  -- a state with other tokens has the same names
  cases hStep : step s.scope with
  | ok b scope =>
      constructor <;> intro _ a t hRun <;>
        cases (hOk hStep).symm.trans hRun
      refine ⟨.of_eq rfl rfl rfl, ⟨scope, rfl, rfl⟩, ?_⟩
      rintro t'
        (⟨n, -, rfl, rfl⟩ | ⟨n, other, -, rfl, rfl⟩) <;>
        exact hOk hStep
  | error fault scope =>
      constructor <;> intro _ a t hRun <;>
        cases (hError hStep).symm.trans hRun
      rcases hRefuses _ _ _ hStep with ⟨rfl, hAt, -⟩
      refine ⟨.refl, hAt ▸ hLine, ?_⟩
      rintro t'
        (⟨n, -, rfl, rfl⟩ | ⟨n, other, -, rfl, rfl⟩) <;>
        exact hError hStep

theorem ofExcept
    {check : Except Fault α}
    (hOk : ∀ a, check = .ok a → Q a s)
    (hError : ∀ fault, check = .error fault →
      s.Reached P fault.line) :
    Tracks P Q (ofExcept check) (ofExcept check) s s' := by
  cases check with
  | ok a => exact pure (hOk a rfl)
  | error fault => exact throw (hError fault rfl)

/- A check leaves the states as they are. -/
theorem check
    {check : Except Fault β}
    {f f' : β → Parse α}
    (hOk : ∀ b,
      check = .ok b → Tracks P Q (f b) (f' b) s s')
    (hError : ∀ fault, check = .error fault →
      s.Reached P fault.line) :
    Tracks P Q (Parse.ofExcept check >>= f)
      (Parse.ofExcept check >>= f') s s' := by
  cases check with
  | ok b =>
      have hNext := hOk b rfl
      exact ⟨hNext.ok, hNext.error⟩
  | error fault => exact throw (Q := Q) (hError fault rfl)

theorem unexpected
    (expected : Expectation) :
    Tracks P Q (unexpected expected) (unexpected expected)
      s s' := by
  constructor
  · rintro - _ _ ⟨⟩
  · rintro hLined _ _ ⟨⟩
    refine ⟨.refl, hLined.here, ?_⟩
    intro t' hFollows
    have hAlike := hFollows.alike .refl
    unfold Parse.unexpected
    rw [hAlike.lookahead, hAlike.line, hFollows.eq]

theorem mistyped
    {problem : TypeProblem}
    {line : Nat}
    (hReached : s.Reached P line) :
    Tracks P Q (mistyped problem line)
      (mistyped problem line) s s' :=
  throw hReached

/- Reading goes on only if a condition holds. -/
theorem require
    [Decidable p]
    {next next' : PUnit → Parse α}
    (hFault : Tracks P (fun _ _ => False) fault fault s s')
    (hNext : p → Tracks P Q (next ⟨⟩) (next' ⟨⟩) s s') :
    Tracks P Q (if p then next ⟨⟩ else fault >>= next)
      (if p then next' ⟨⟩ else fault >>= next') s s' := by
  split
  · rename_i hHolds
    exact hNext hHolds
  · exact hFault.bind fun _ _ _ _ _ hFalse _ => hFalse.elim

/- Reading goes on only if a condition does not hold. -/
theorem refuse
    [Decidable p]
    {next next' : PUnit → Parse α}
    (hFault : Tracks P (fun _ _ => False) fault fault s s')
    (hNext : ¬ p → Tracks P Q (next ⟨⟩) (next' ⟨⟩) s s') :
    Tracks P Q (if p then fault >>= next else next ⟨⟩)
      (if p then fault >>= next' else next' ⟨⟩) s s' := by
  split
  · exact hFault.bind fun _ _ _ _ _ hFalse _ => hFalse.elim
  · rename_i hFails
    exact hNext hFails

------------------------------------------------------------
-- Tokens
------------------------------------------------------------

theorem settle :
    Tracks P (fun _ t => t = s) settle settle s s' := by
  have hSettled : ∀ u : Parser, u.tokens ≠ [] ∨
      u.fault? = none → Parse.settle u = .ok () u := by
    intro u hNone
    unfold Parse.settle
    split
    · rename_i hNil hFault
      rw [hNil, hFault] at hNone
      rcases hNone with hNone | hNone
      · exact absurd rfl hNone
      · cases hNone
    · rfl
  constructor
  · intro _ _ t hOk
    have hSame : t = s := by
      unfold Parse.settle at hOk
      split at hOk
      · cases hOk
      · cases hOk
        rfl
    subst hSame
    refine ⟨.refl, rfl, ?_⟩
    rintro t'
      (⟨n, rfl | hNone, rfl, rfl⟩ | ⟨n, other, hLess,
        rfl, rfl⟩)
    · rw [t.padded_zero]
      exact hOk
    · exact hSettled _ (.inr hNone)
    · rcases List.exists_cons_of_ne_nil
        (List.length_pos_iff.mp (Nat.zero_lt_of_lt hLess))
          with
          ⟨lexeme, rest, hTokens⟩
      refine hSettled _ (.inl ?_)
      rw [Parser.tokens_divert other hTokens hLess]
      exact List.cons_ne_nil _ _
  · intro hLined fault t hError
    unfold Parse.settle at hError
    split at hError
    · rename_i lexical hTokens hFault
      cases hError
      have hLine : s.line = s.final.line := by
        unfold Parser.line Parser.mark
        rw [hTokens]
      refine ⟨.refl, ?_, ?_⟩
      · intro hMatter
        rw [hLine]
        exact (hLined hMatter).fault lexical hFault
      · rintro t'
          (⟨n, rfl | hNone, rfl, rfl⟩ | ⟨n, other,
            hLess, -, -⟩)
        · unfold Parse.settle
          rw [s.padded_zero, hTokens, hFault]
        · rw [hFault] at hNone
          cases hNone
        · rw [Parser.left, hTokens] at hLess
          cases hLess
    · cases hError

/- A token is taken. -/
theorem advance
    (hToken : s.lookahead ≠ .endOfFile) :
    Tracks P (fun _ t => t.left + 1 = s.left) advance
      advance s s' := by
  have hSome : ∃ lexeme rest, s.tokens = lexeme :: rest ∧
      lexeme.token ≠ .endOfFile := by
    unfold Parser.lookahead at hToken
    cases hTokens : s.tokens with
    | nil =>
        rw [hTokens] at hToken
        exact absurd rfl hToken
    | cons lexeme rest =>
        rw [hTokens] at hToken
        exact ⟨lexeme, rest, rfl, hToken⟩
  rcases hSome with ⟨lexeme, rest, hTokens, hTaken⟩
  unfold Parse.advance
  refine (modify ⟨?_, ?_, ?_⟩).bind ?_
  · refine ⟨⟨List.tail_suffix _, rfl, rfl⟩, [lexeme], ?_,
      List.forall_mem_singleton.mpr hTaken⟩
    rw [hTokens]
    rfl
  · intro n
    unfold Parser.padded
    rw [hTokens]
    rfl
  · intro n other hLess
    have hMore : n < rest.length := by
      rw [Parser.left, hTokens] at hLess
      exact hLess
    have hLeft : n < s.left := by
      rw [Parser.left, hTokens]
      exact Nat.lt_succ_of_lt hMore
    rw [Parser.tokens_divert other hTokens hLeft]
    unfold Parser.divert Parser.left
    rw [hTokens]
    rfl
  · rintro _ t t' - - rfl -
    refine settle.weaken ?_
    rintro _ _ - rfl
    rw [Parser.left, Parser.left, hTokens]
    rfl

theorem expect
    {token : Token}
    (hToken : token ≠ .endOfFile) :
    Tracks P (fun _ t => t.left + 1 = s.left) (expect token)
      (expect token) s s' := by
  refine look ?_ ?_
  · split
    · rename_i hNext
      exact advance (hNext ▸ hToken)
    · exact unexpected _
  · intro hAlike
    rw [hAlike.lookahead]

theorem identifier :
    Tracks P (fun _ t => t.left + 1 = s.left) identifier
      identifier s s' := by
  refine look ?_ ?_
  · split
    · rename_i name hNext
      refine (advance ?_).bind ?_
      · rw [hNext]
        exact Token.noConfusion
      · intro _ t t' _ _ hTaken _
        exact pure hTaken
    · exact unexpected _
  · intro hAlike
    rw [hAlike.lookahead]

/- A token taken if it is wanted leads two ways. -/
theorem accept
    {token : Token}
    {f f' : Bool → Parse α}
    (hTrue : s.lookahead = token →
      Tracks P Q (Parse.advance >>= fun _ => f true)
        (Parse.advance >>= fun _ => f' true) s s')
    (hFalse : s.lookahead ≠ token →
      Tracks P Q (f false) (f' false) s s') :
    Tracks P Q (accept token >>= f) (accept token >>= f')
      s s' := by
  unfold Parse.accept
  rw [bind_assoc, bind_assoc]
  refine look ?_ fun hAlike => by rw [hAlike.lookahead]
  split
  · rename_i hNext
    simp only [bind_assoc, pure_bind]
    exact hTrue hNext
  · rename_i hOther
    simp only [pure_bind]
    exact hFalse hOther

end Tracks

/-
  Two ways of reading something come to the same from states
  in which fewer tokens are left than given numbers.
-/
def Tracked
    (P : Prop)
    (Q : Parser → α → Parser → Prop)
    (n n' : Nat)
    (x x' : Parse α) : Prop :=
  ∀ s s', s.left < n → s'.left ≤ n' - 1 →
    Tracks P (Q s) x x' s s'

theorem Tracked.fewer
    {P : Prop}
    {Q : Parser → α → Parser → Prop}
    {n n' m m' : Nat}
    {x x' : Parse α}
    (hTracked : Tracked P Q n n' x x')
    (hFewer : m ≤ n)
    (hFewer' : m' - 1 ≤ n' - 1) :
    Tracked P Q m m' x x' :=
  fun s s' hLeft hLeft' =>
    hTracked s s' (by omega) (by omega)

/-
  A loop is bounded by a number of turns, of which none is
  needed at the end of the file.  A turn is given what to do
  further on.
-/
structure Repeats
    (turn : (ι → Parse α) → ι → Parse α)
    (upTo : Nat → ι → Parse α) : Prop where
  succ : ∀ m, upTo (m + 1) = turn (upTo m)
  ended : ∀ again i s, s.lookahead = .endOfFile →
    upTo 0 i s = turn again i s

/-
  A turn goes on only where fewer tokens are left, so turns
  come to the same if what is done there does.
-/
def Guarded
    (P : Prop)
    (Fits : ι → Parser → Prop)
    (Q : ι → Parser → α → Parser → Prop)
    (turn turn' : (ι → Parse α) → ι → Parse α)
    (s s' : Parser) : Prop :=
  ∀ again again',
    (∀ j t t', Fits j t → t.left < s.left →
      t'.left ≤ s'.left - 1 →
      Tracks P (Q j t) (again j) (again' j) t t') →
    ∀ i, Fits i s →
      Tracks P (Q i s) (turn again i) (turn' again' i) s s'

namespace Repeats

variable {P : Prop} {m m' : Nat}
variable {turn turn' : (ι → Parse α) → ι → Parse α}
variable {upTo upTo' : Nat → ι → Parse α}
variable {Fits : ι → Parser → Prop}
variable {Q : ι → Parser → α → Parser → Prop}
variable {s s' : Parser}

/- As long as there are tokens there is a turn. -/
theorem eq_turn
    (hRepeats : Repeats turn upTo)
    (hTurns : s.left ≤ m)
    (i : ι) :
    upTo m i s = turn (upTo (m - 1)) i s := by
  cases m with
  | zero =>
      refine hRepeats.ended _ i s ?_
      rw [Parser.lookahead,
        List.length_eq_zero_iff.mp (Nat.le_zero.mp hTurns)]
  | succ m => rw [hRepeats.succ, Nat.add_sub_cancel]

/-
  The number of tokens left is enough for a loop, so any two
  numbers that are great enough come to the same.
-/
theorem tracks
    (hFirst : Repeats turn upTo)
    (hSecond : Repeats turn' upTo')
    (hTurn : ∀ t t', t.left ≤ s.left → t'.left ≤ s'.left →
      Guarded P Fits Q turn turn' t t')
    (hTurns : s.left ≤ m)
    (hTurns' : s'.left ≤ m')
    (i : ι)
    (hFits : Fits i s) :
    Tracks P (Q i s) (upTo m i) (upTo' m' i) s s' := by
  induction hLeft : s.left using Nat.strongRecOn
    generalizing s s' m m' i with
  | ind left ih =>
      subst hLeft
      refine .of_eq
        (hTurn s s' (Nat.le_refl _) (Nat.le_refl _)
        (upTo (m - 1)) (upTo' (m' - 1)) ?_ i hFits)
        (hFirst.eq_turn hTurns i) fun _ =>
          hSecond.eq_turn hTurns' i
      intro j t t' hFits₁ hLess hLess'
      exact ih t.left hLess
        (fun u u' hU hU' => hTurn u u' (by omega)
        (by omega)) (by omega) (by omega) j hFits₁ rfl

end Repeats

section

variable {P : Prop}
variable {cost : α → Nat} {noted : α → List Nat}
    {item item' : Parse α}
variable {s s' : Parser}

/- A further item, if there is a comma. -/
def itemTurn
    (item : Parse α)
    (again : Unit → Parse (List α))
    (_ : Unit) : Parse (List α) := do
  if ← accept (.symbol .comma) then
    let first ← item
    let rest ← again ()
    return first :: rest
  else
    return []

theorem moreItems_repeats
    (item : Parse α) :
    Repeats (itemTurn item) fun m _ =>
      moreItems item m := by
  refine ⟨fun m => rfl, ?_⟩
  intro again _ s hEnd
  have hNone : s.lookahead ≠ .symbol .comma :=
    hEnd ▸ Token.noConfusion
  rw [itemTurn, Step.bind_of_ok (accept_of_ne hNone)]
  rfl

theorem itemTurn_guarded
    (hItem : Tracked P (Parser.Paid P cost noted) s.left
      s'.left item item') :
    Guarded P (fun _ _ => True)
      (fun _ => Parser.AllPaid P cost noted)
      (itemTurn item) (itemTurn item') s s' := by
  intro again again' hAgain _ _
  refine .accept ?_ fun _ => .pure .nil
  intro hNext
  refine (Tracks.advance (hNext ▸ Token.noConfusion)).bind
    ?_
  intro _ t t' _ hTook hTaken hLeft
  refine (hItem t t' (by omega) (by omega)).bind ?_
  intro first u u' hLined₂ hTook₂ hFirst hLeft₂
  have hProgress := hFirst.progress
  refine (hAgain () u u' trivial (by omega) (by omega)).bind
    ?_
  intro rest v v' _ hTook₃ hRest _
  exact .pure ((hRest.cons hFirst hLined₂ hTook₃).since
    hTook)

theorem moreItems_tracks
    {m m' : Nat}
    (hItem : Tracked P (Parser.Paid P cost noted) s.left
      s'.left item item')
    (hTurns : s.left ≤ m)
    (hTurns' : s'.left ≤ m') :
    Tracks P (Parser.AllPaid P cost noted s)
      (moreItems item m) (moreItems item' m') s s' :=
  (moreItems_repeats item).tracks (moreItems_repeats item')
    (fun _ _ hT hT' =>
      itemTurn_guarded (hItem.fewer hT (by omega)))
    hTurns hTurns' () trivial

theorem separated_tracks
    (hItem : Tracked P (Parser.Paid P cost noted)
      (s.left + 1) (s'.left + 1) item item') :
    Tracks P (fun items t => t.left < s.left ∧
        Parser.AllPaid P cost noted s items t)
      (separated item) (separated item') s s' := by
  refine (hItem s s' (by omega) (by omega)).bind ?_
  intro first t t' hLined₁ _ hFirst hLeft
  have hProgress := hFirst.progress
  refine .get ?_
  refine (moreItems_tracks
    (hItem.fewer (by omega) (by omega)) (Nat.le_refl _)
    (Nat.le_refl _)).bind ?_
  intro rest u u' _ hTook₂ hRest _
  have hLess := Nat.lt_of_le_of_lt hTook₂.left_le hProgress
  exact .pure ⟨hLess, hRest.cons hFirst hLined₁ hTook₂⟩

end

end Parse

end Bracketry
