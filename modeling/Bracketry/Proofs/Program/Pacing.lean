import Bracketry.Proofs.Program.Tracking

/-
  This file says that reading goes on and ends, on every
  text.

  What is read has taken a token, so a loop that goes on
  only behind something comes to an end with the tokens,
  whatever it should do then.  Lines and costs have no part
  in this.
-/

namespace Bracketry

/- A state that is long enough pays for anything. -/
theorem Parser.paid_padded
    {α : Type}
    {cost : α → Nat}
    {noted : α → List Nat}
    (a : α)
    (s : Parser) :
    Paid False cost noted (s.padded (cost a + 1)) a s := by
  refine ⟨?_, ?_, fun _ _ => False.elim⟩
  · rw [left_padded]
    omega
  · rw [left_padded]
    omega

namespace Parse

variable {α ι : Type}

/- An outcome with more ends of the file behind it. -/
def lengthen
    (n : Nat) :
    EStateM.Result Fault Parser α →
      EStateM.Result Fault Parser α
| .ok a t => .ok a (t.padded n)
| .error fault t => .error fault (t.padded n)

/-
  What succeeds has taken at least one token and no end of
  the file, and does not care how many of these there are.
-/
structure Advances (x : Parse α) : Prop where
  takes : ∀ s a t, x s = .ok a t → ∃ taken, taken ≠ [] ∧
    s.tokens = taken ++ t.tokens ∧
      ∀ lexeme ∈ taken, lexeme.token ≠ .endOfFile
  stays : ∀ s n, s.fault? = none →
    x (s.padded n) = lengthen n (x s)

theorem Tracks.padded
    {Q : α → Parser → Prop}
    {x x' : Parse α}
    {s : Parser}
    {n : Nat}
    (hTracks : Tracks False Q x x' s (s.padded n))
    (hRoom : n = 0 ∨ s.fault? = none) :
    x' (s.padded n) = lengthen n (x s) := by
  cases hRun : x s with
  | ok a t =>
      exact (hTracks.ok False.elim a t hRun).2.2 _
        (.inl ⟨n, hRoom, rfl, rfl⟩)
  | error fault t =>
      exact (hTracks.error False.elim fault t hRun).2.2 _
        (.inl ⟨n, hRoom, rfl, rfl⟩)

theorem advances_of_tracks
    {Q : Parser → α → Parser → Prop}
    {x : Parse α}
    (hTracks : ∀ s s', Tracks False (Q s) x x s s')
    (hProgress : ∀ s a t, Q s a t → t.left < s.left) :
    Advances x := by
  constructor
  · intro s a t hOk
    rcases (hTracks s s).ok False.elim a t hOk with
      ⟨hTook, hResult, -⟩
    rcases hTook.before with ⟨taken, hTokens, hTaken⟩
    refine ⟨taken, ?_, hTokens, hTaken⟩
    rintro rfl
    have hLess := hProgress s a t hResult
    rw [Parser.left, Parser.left, hTokens] at hLess
    exact absurd hLess (Nat.lt_irrefl _)
  · intro s n hNone
    exact (hTracks s _).padded (.inr hNone)

------------------------------------------------------------
-- Ending
------------------------------------------------------------

/-
  A loop ends with the tokens.  It is made of its turns.
  What a turn does further on it does where fewer tokens are
  left.  Of more turns than there are tokens the last is
  never begun, so anything may stand in its place.
-/
structure Ends
    (turn : (ι → Parse α) → ι → Parse α)
    (upTo : Nat → ι → Parse α) : Prop where
  turns : ∀ m, upTo (m + 1) = turn (upTo m)
  founded : ∀ again i s,
    (∀ j t, t.left < s.left → again j t = upTo t.left j t) →
      turn again i s = upTo s.left i s
  bounded : ∀ rest m i s, s.left < m →
    Nat.repeat turn m rest i s = upTo s.left i s

variable {turn : (ι → Parse α) → ι → Parse α}
variable {upTo : Nat → ι → Parse α}

/- A loop whose turns are guarded ends. -/
theorem Repeats.ends
    (hRepeats : Repeats turn upTo)
    (hTurn : ∀ i s, ∃ Fits Q, Fits i s ∧
      ∀ t t', Guarded False Fits Q turn turn t t') :
    Ends turn upTo := by
  have hFounded : ∀ again i s,
      (∀ j t, t.left < s.left →
        again j t = upTo t.left j t) →
        turn again i s = upTo s.left i s := by
    intro again i s hAgain
    rcases hTurn i s with ⟨Fits, Q, hFits, hGuarded⟩
    have hTracks :=
      hGuarded s (s.padded 0) (upTo (s.left - 1)) again ?_ i
      hFits
    · have hSame := hTracks.padded (.inl rfl)
      rw [s.padded_zero, ← hRepeats.eq_turn (Nat.le_refl _)]
        at hSame
      rw [hSame]
      cases upTo s.left i s with
      | ok a t => rw [lengthen, t.padded_zero]
      | error fault t => rw [lengthen, t.padded_zero]
    · intro j t t' hFits₁ hLess hLess'
      rw [s.padded_zero] at hLess'
      have hEnough :
          Tracks False (Q j t) (upTo (s.left - 1) j)
          (upTo t'.left j) t t' :=
        hRepeats.tracks hRepeats
          (fun u u' _ _ => hGuarded u u') (by omega)
          (Nat.le_refl _) j hFits₁
      exact hEnough.of_eq rfl fun _ =>
        hAgain j t' (by omega)
  refine ⟨hRepeats.succ, hFounded, ?_⟩
  intro rest m
  induction m with
  | zero =>
      exact fun i s hLess =>
        absurd hLess (Nat.not_lt_zero _)
  | succ m ih =>
      intro i s hLess
      refine hFounded (Nat.repeat turn m rest) i s ?_
      exact fun j t hFewer => ih j t (by omega)

/- The same where a turn needs nothing to go on. -/
theorem Repeats.ends_of_guarded
    {Q : ι → Parser → α → Parser → Prop}
    (hRepeats : Repeats turn upTo)
    (hTurn : ∀ t t',
      Guarded False (fun _ _ => True) Q turn turn t t') :
    Ends turn upTo :=
  hRepeats.ends fun _ _ => ⟨_, Q, trivial, hTurn⟩

theorem moreItems_ends
    {item : Parse α}
    {cost : α → Nat}
    {noted : α → List Nat}
    (hItem : ∀ s s',
      Tracks False (Parser.Paid False cost noted s)
        item item
      s s') :
    Ends (itemTurn item) fun m _ => moreItems item m :=
  (moreItems_repeats item).ends_of_guarded fun _ _ =>
    itemTurn_guarded fun s s' _ _ => hItem s s'

end Parse

open Parse

namespace Expr

/- The operands of a level: the levels that bind more. -/
def above (k : Nat) : Parse Expr :=
  (levels.drop (k + 1)).foldr binary (unary (primary parse))

theorem primary_parse_tracked
    (n n' : Nat) :
    Tracked False n n' (primary parse) (primary parse) := by
  have hMore :
      Tracked False (n + 1) (n' + 1) (primary parse)
      (primary parse) :=
    primary_tracked fun _ _ _ _ => parse_tracks
  exact hMore.fewer (by omega) (by omega)

theorem operands_end
    (k : Fin levels.length) :
    Ends (operandTurn levels[k] (above k))
      (operands levels[k] (above k)) := by
  have hFair := levels_fair (List.getElem_mem k.isLt)
  have hOperand : ∀ n n', Tracked False n n' (above k)
    (above k) :=
    fun n n' => foldr_binary_tracked (List.drop_subset _ _)
      (unary_tracked (primary_parse_tracked n n'))
  refine (operands_repeats hFair _).ends fun left s => ?_
  exact ⟨Paid False (s.padded (left.cost + 1)), _,
    Parser.paid_padded left s, fun _ _ =>
      operandTurn_guarded hFair (hOperand _ _)⟩

theorem unaryUpTo_ends :
    Ends (signTurn (primary parse)) fun m _ =>
      unaryUpTo (primary parse) m :=
  (unaryUpTo_repeats _).ends_of_guarded fun t t' =>
    signTurn_guarded (primary_parse_tracked _ (t'.left + 1)
      t t' (Nat.lt_succ_self _) (Nat.le_refl _))

theorem accessUpTo_ends :
    Ends (accessTurn parse) (accessUpTo parse) := by
  refine (accessUpTo_repeats _).ends fun place s => ?_
  exact ⟨Place.Paid False (s.padded (place.cost + 5)), _,
    Parser.paid_padded place s, fun _ _ =>
      accessTurn_guarded fun _ _ _ _ => parse_tracks⟩

end Expr

/-
  Reading goes on and ends, whatever the tokens are.  What
  is read has taken a token, and never the end of the file.
  With each turn of a loop and each step inwards fewer
  tokens are left, so a turn more than there are tokens is
  never begun.
-/
theorem Program.reading_ends :
    -- expressions, statements, declarations, fields,
    -- constructs
    (Advances Expr.parse ∧ Advances Stmt.parse ∧
      Advances Stmt.declaration ∧
        Advances (separated Field.parse) ∧
      Advances topLevel) ∧
    -- operators, signs and brackets behind a name
    (∀ k : Fin Expr.levels.length,
      Ends (Expr.operandTurn Expr.levels[k] (Expr.above k))
        (Expr.operands Expr.levels[k] (Expr.above k))) ∧
    Ends (Expr.signTurn (Expr.primary Expr.parse))
      (fun m _ =>
        Expr.unaryUpTo (Expr.primary Expr.parse) m) ∧
    Ends (Expr.accessTurn Expr.parse)
      (Expr.accessUpTo Expr.parse) ∧
    -- arguments, elements and fields
    Ends (itemTurn Expr.parse)
      (fun m _ => moreItems Expr.parse m) ∧
    Ends (itemTurn (Expr.constant Expr.parse))
      (fun m _ => moreItems (Expr.constant Expr.parse) m) ∧
    Ends (itemTurn Field.parse)
      (fun m _ => moreItems Field.parse m) ∧
    -- dimensions, braces and whole programs
    Ends Ty.lengthTurn (fun m _ => Ty.parseLengths m) ∧
    Ends (Stmt.braceTurn Stmt.parse)
      (fun m _ => Stmt.untilBrace Stmt.parse m) ∧
    Ends constructTurn (fun m _ => constructs m) ∧
    -- expressions and statements inside others
    Ends Expr.nestedTurn (fun m _ => Expr.nested m) ∧
    Ends Stmt.nestedTurn (fun m _ => Stmt.nested m) := by
  refine ⟨⟨?_, ?_, ?_, ?_, ?_⟩, Expr.operands_end,
    Expr.unaryUpTo_ends,
    Expr.accessUpTo_ends, ?_, ?_, ?_, ?_, ?_, ?_, ?_, ?_⟩
  · exact advances_of_tracks (fun _ _ => Expr.parse_tracks)
      fun _ _ _ hPaid => hPaid.progress
  · exact advances_of_tracks (fun _ _ => Stmt.parse_tracks)
      fun _ _ _ hPaid => hPaid.progress
  · exact advances_of_tracks
      (fun _ _ => Stmt.declaration_tracks)
      fun _ _ _ hPaid => hPaid.progress
  · exact advances_of_tracks
      (fun _ _ => separated_tracks fun _ _ _ _ =>
        Field.parse_tracks)
      fun _ _ _ hPaid => hPaid.1
  · exact advances_of_tracks (fun _ _ => topLevel_tracks)
      fun _ _ _ hPaid => hPaid.1
  · exact moreItems_ends fun _ _ => Expr.parse_tracks
  · exact moreItems_ends fun s s' => Expr.constant_tracked
      (fun _ _ _ _ => Expr.parse_tracks) s s'
        (Nat.lt_succ_self _)
      (Nat.le_sub_one_of_lt (Nat.lt_succ_self _))
  · exact moreItems_ends fun _ _ => Field.parse_tracks
  · exact Ty.parseLengths_repeats.ends_of_guarded fun _ _ =>
      Ty.lengthTurn_guarded
  · exact (Stmt.untilBrace_repeats _).ends_of_guarded
      fun _ _ =>
        Stmt.braceTurn_guarded Stmt.parse_tracks
  · exact constructs_repeats.ends_of_guarded fun _ _ =>
      constructTurn_guarded
  · exact Expr.nested_repeats.ends_of_guarded fun _ _ =>
      Expr.nestedTurn_guarded
  · exact Stmt.nested_repeats.ends_of_guarded fun _ _ =>
      Stmt.nestedTurn_guarded

end Bracketry
