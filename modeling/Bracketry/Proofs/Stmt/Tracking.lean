import Bracketry.Proofs.Discipline.Stmt
import Bracketry.Proofs.Expr.Tracking
import Bracketry.Proofs.Stmt.Reading

/-
  This file follows the reading of statements: the tokens it
  takes pay for what writing the statement takes, faults lie
  on lines that were reached, and no token behind the next
  one is looked at.

  Main declarations:
    * `Stmt.braceTurn` and `Stmt.nestedTurn`
    * `Stmt.one_tracked` and `Stmt.parse_tracks`
-/

namespace Bracketry

open Parse

variable {fault : Fault} {line : Nat} {t : Ty}

theorem Expr.agree_line
    {value : Expr}
    {declared : Ty}
    (hError : value.agree declared = .error fault) :
    fault.line = value.line := by
  unfold Expr.agree at hError
  repeat' split at hError
  all_goals cases hError
  all_goals rfl

theorem Expr.initial_line
    (hError : Expr.initial t line = .error fault) :
    fault.line = line := by
  unfold Expr.initial at hError
  split at hError <;> cases hError
  rfl

theorem Expr.initial_cost
    {e : Expr}
    (hOk : Expr.initial t line = .ok e) :
    e.cost ≤ 1 := by
  unfold Expr.initial at hOk
  split at hOk <;> cases hOk <;> simp

namespace Stmt

/- A statement is paid with the label before it. -/
abbrev Paid (P : Prop) : Parser → Stmt → Parser → Prop :=
  Parser.Paid P (fun st => st.cost + 1) fun _ => []

abbrev Tracked (P : Prop) : Nat → Nat → Parse Stmt →
    Parse Stmt → Prop :=
  Parse.Tracked P (Paid P)

variable {P : Prop} {s s' : Parser} {name : String}

theorem initializer_tracks
    {declared : Ty}
    (hLine : s.Reached P line) :
    Tracks P (fun result t => result.2.cost + 16 * t.left ≤
      16 * s.left + 1) (initializer declared name line)
        (initializer declared name line)
      s s' := by
  refine .accept ?_ ?_
  · intro hNext
    refine (Tracks.advance (hNext ▸ Token.noConfusion)).bind
      ?_
    intro _ t t' _ _ hTaken _
    refine Expr.parse_tracks.bind ?_
    intro value u u' _ _ hValue _
    have hCost := hValue.paid
    refine .check ?_ ?_
    · intro result _
      refine .pure ?_
      dsimp only
      omega
    · intro fault hError
      rw [Expr.agree_line hError]
      exact hValue.lines _ value.line_mem_noted
  · intro _
    refine .require (.mistyped hLine) fun _ => ?_
    refine .check ?_ ?_
    · intro value hOk
      have hCost := Expr.initial_cost hOk
      refine .pure ?_
      dsimp only
      omega
    · intro fault hError
      rw [Expr.initial_line hError]
      exact hLine

theorem bind_tracks
    (hLine : s.Reached P line) :
    Tracks P (fun _ u => u.left = s.left) (bind name t line)
      (bind name t line) s s' := by
  refine .of_alike fun u hAlike => ?_
  rcases u with
    ⟨tokens, fault?, final, scope, function, loopDepth⟩
  obtain rfl : scope = s.scope := hAlike.scope
  obtain rfl : function = s.function := hAlike.function
  refine .get ?_
  dsimp only
  split
  · exact .mistyped hLine
  · refine .bind
      (.onScope (Scope.addVariable_refuses _) hLine) ?_
    rintro _ v v' - - ⟨scope, -, rfl⟩ -
    exact .pure rfl

theorem header_tracks :
    Tracks P (Field.Paid P s) header header s s' := by
  refine Field.header_tracks.bind ?_
  intro field t t' _ _ hPaid _
  exact .refuse (.mistyped hPaid.reached) fun _ =>
    .pure hPaid

theorem declaration_tracks :
    Tracks P (Paid P s) declaration declaration s s' := by
  rw [declaration_eq]
  refine header_tracks.bind ?_
  intro field t t' hLined₁ _ hPaid _
  have hProgress := hPaid.progress
  refine (initializer_tracks hPaid.reached).bind ?_
  intro initial u u' _ hTook₂ hCost _
  have hLe₂ := hTook₂.left_le
  refine (Tracks.expect Token.noConfusion).bind ?_
  intro _ v v' _ hTook₃ hTaken₃ _
  have hLine :=
    hPaid.reached.later hLined₁ (hTook₂.trans hTook₃)
  refine (bind_tracks hLine).bind ?_
  intro declaredAs w w' _ _ hLeft _
  refine .pure ⟨by omega, ?_, List.forall_mem_nil _⟩
  rw [cost, Place.cost]
  omega

theorem condition_tracks :
    Tracks P (Expr.Paid P s) condition condition s s' := by
  refine .lined fun hLined => ?_
  refine .look ?_ fun hAlike => by rw [hAlike.line]
  refine Expr.parse_tracks.bind ?_
  intro e t t' _ hTook hPaid _
  refine .check (fun _ _ => .pure hPaid) ?_
  intro fault hError
  rw [Expr.requireCondition_line hError]
  exact hLined.reached hTook

theorem assignment_tracks
    {x : Identifier}
    (hNext : s.lookahead ≠ .endOfFile) :
    Tracks P (Paid P s) (assignment x s.line)
      (assignment x s.line) s s' := by
  refine (Tracks.advance hNext).bind ?_
  intro _ t t' _ _ hTaken _
  refine (Expr.access_tracks
    (fun _ _ _ _ => Expr.parse_tracks) hTaken).bind ?_
  intro target u u' _ _ hTarget _
  have hPlace := hTarget.paid
  have hSince := hTarget.progress
  refine (Tracks.expect Token.noConfusion).bind ?_
  intro _ v v' _ _ hTaken₃ _
  refine Expr.parse_tracks.bind ?_
  intro value w w' _ _ hValue _
  have hCost := hValue.paid
  have hProgress := hValue.progress
  refine .check ?_ ?_
  · intro _ _
    refine (Tracks.expect Token.noConfusion).bind ?_
    intro _ x x' _ _ hTaken₅ _
    refine .pure ⟨by omega, ?_, List.forall_mem_nil _⟩
    rw [cost]
    omega
  · intro fault hError
    rw [Expr.agree_line hError]
    exact hValue.lines _ value.line_mem_noted

theorem evaluation_tracks :
    Tracks P (Paid P s) evaluation evaluation s s' := by
  refine .lined fun hLined => ?_
  refine .look ?_ fun hAlike => by rw [hAlike.line]
  refine Expr.parse_tracks.bind ?_
  intro e t t' _ hTook hPaid _
  have hCost := hPaid.paid
  have hProgress := hPaid.progress
  refine .require (.mistyped (hLined.reached hTook))
    fun _ => ?_
  refine (Tracks.expect Token.noConfusion).bind ?_
  intro _ u u' _ _ hTaken _
  refine .pure ⟨by omega, ?_, List.forall_mem_nil _⟩
  rw [cost]
  omega

theorem returned_tracks
    (hNext : s.lookahead ≠ .endOfFile) :
    Tracks P (Paid P s) returned returned s s' := by
  refine .lined fun hLined => ?_
  refine .look ?_ fun hAlike => by rw [hAlike.line]
  refine (Tracks.advance hNext).bind ?_
  intro _ t t' _ hTook hTaken _
  refine .look ?_ fun hAlike => by rw [hAlike.function]
  split
  · exact .unexpected _
  · refine .accept ?_ ?_
    · intro hClosed
      refine (Tracks.advance
        (hClosed ▸ Token.noConfusion)).bind ?_
      intro _ u u' _ hTook₂ hTaken₂ _
      rw [if_pos rfl]
      refine .refuse
        (.mistyped (hLined.reached (hTook.trans hTook₂)))
        fun _ => ?_
      refine .pure ⟨by omega, ?_, List.forall_mem_nil _⟩
      rw [cost, valueCost]
      omega
    · intro _
      rw [if_neg Bool.false_ne_true]
      refine .refuse (.mistyped (hLined.reached hTook))
        fun _ => ?_
      refine Expr.parse_tracks.bind ?_
      intro value u u' _ hTook₂ hValue _
      have hCost := hValue.paid
      have hProgress := hValue.progress
      refine .require
        (.throw (hLined.reached (hTook.trans hTook₂)))
        fun _ => ?_
      refine (Tracks.expect Token.noConfusion).bind ?_
      intro _ v v' _ _ hTaken₃ _
      refine .pure ⟨by omega, ?_, List.forall_mem_nil _⟩
      rw [cost, valueCost]
      omega

theorem broken_tracks
    (hNext : s.lookahead ≠ .endOfFile) :
    Tracks P (Paid P s) broken broken s s' := by
  refine .lined fun hLined => ?_
  refine .look ?_ fun hAlike => by rw [hAlike.line]
  refine (Tracks.advance hNext).bind ?_
  intro _ t t' _ hTook hTaken _
  refine .look ?_ fun hAlike => by rw [hAlike.loopDepth]
  refine .refuse (.throw (hLined.reached hTook)) fun _ => ?_
  refine (Tracks.expect Token.noConfusion).bind ?_
  intro _ u u' _ _ hTaken₂ _
  refine .pure ⟨by omega, ?_, List.forall_mem_nil _⟩
  rw [cost]
  omega

theorem leading_tracks
    (hNext : s.lookahead ≠ .endOfFile) :
    Tracks P (Paid P s) (leading name) (leading name)
      s s' := by
  refine .lined fun hLined => ?_
  refine .look ?_ fun hAlike => by
    rw [hAlike.scope, hAlike.line]
  split
  · exact declaration_tracks
  · split
    · exact assignment_tracks hNext
    · exact evaluation_tracks
    · exact .throw hLined.here

theorem nothing_tracks
    (hNext : s.lookahead ≠ .endOfFile) :
    Tracks P (Paid P s) nothing nothing s s' := by
  refine .look ?_ fun hAlike => by rw [hAlike.line]
  refine (Tracks.advance hNext).bind ?_
  intro _ t t' _ _ hTaken _
  refine .pure ⟨by omega, ?_, List.forall_mem_nil _⟩
  rw [cost]
  omega

------------------------------------------------------------
-- Compound Statements
------------------------------------------------------------

variable {n n' : Nat} {statement statement' : Parse Stmt}

/- A further statement, unless there is a closing brace. -/
def braceTurn
    (statement : Parse Stmt)
    (again : Unit → Parse (List Stmt))
    (_ : Unit) : Parse (List Stmt) := do
  match (← get).lookahead with
  | .symbol .rightBrace => return []
  | .endOfFile => return []
  | _ =>
      let first ← statement
      let rest ← again ()
      return first :: rest

theorem untilBrace_repeats
    (statement : Parse Stmt) :
    Repeats (braceTurn statement) fun m _ =>
      untilBrace statement m := by
  refine ⟨fun m => rfl, ?_⟩
  intro again _ s hEnd
  rw [braceTurn, Step.get_bind, hEnd]
  rfl

theorem braceTurn_guarded
    (hStatement :
      Tracks P (Paid P s) statement statement' s s') :
    Guarded P (fun _ _ => True)
      (fun _ => Parser.AllPaid P (fun st => st.cost + 1)
        fun _ => [])
      (braceTurn statement) (braceTurn statement')
        s s' := by
  intro again again' hAgain _ _
  refine .look ?_ fun hAlike => by rw [hAlike.lookahead]
  split
  · exact .pure .nil
  · exact .pure .nil
  · refine hStatement.bind ?_
    intro first t t' hLined₁ _ hFirst hAs
    have hProgress := hFirst.progress
    refine (hAgain () t t' trivial hProgress
      (by omega)).bind ?_
    intro rest u u' _ hTook₂ hRest _
    exact .pure (hRest.cons hFirst hLined₁ hTook₂)

theorem allCost_eq_sum
    (sts : List Stmt) :
    allCost sts = (sts.map fun st => st.cost + 1).sum := by
  induction sts with
  | nil => rfl
  | cons st rest ih =>
      rw [allCost, ih, List.map_cons, List.sum_cons]
      omega

theorem ofList_cost_le
    (sts : List Stmt)
    (line : Nat) :
    (ofList sts line).cost ≤ allCost sts := by
  cases sts with
  | nil => exact Nat.le_refl _
  | cons head tail =>
      rw [ofList, cost, allCost]
      omega

theorem braced_tracks
    (hStatement :
      Tracked P s.left s'.left statement statement') :
    Tracks P (Paid P s) (braced statement)
      (braced statement') s s' := by
  refine .look ?_ fun hAlike => by rw [hAlike.line]
  refine (Tracks.expect Token.noConfusion).bind ?_
  intro _ t t' _ _ hTaken hAs
  refine .get ?_
  refine ((untilBrace_repeats statement).tracks
    (untilBrace_repeats statement')
    (fun u u' hU hU' => braceTurn_guarded
      (hStatement u u' (by omega) (by omega)))
    (Nat.le_refl _) (Nat.le_refl _) () trivial).bind ?_
  intro statements u u' _ hTook₂ hAll _
  have hLe := hTook₂.left_le
  have hPaid := hAll.paid
  rw [← allCost_eq_sum] at hPaid
  refine (Tracks.expect Token.noConfusion).bind ?_
  intro _ v v' _ _ hTaken₃ _
  have hCost := ofList_cost_le statements s.line
  exact .pure ⟨by omega, by omega, List.forall_mem_nil _⟩

/- What is known may change around a statement. -/
theorem enclosed_tracks
    {before after : Parser → Parser}
    {x x' : Parse Stmt}
    (hBefore : ∀ u : Parser, u.Moves before)
    (hAfter : ∀ u : Parser, u.Moves after)
    (hInside : ∀ u u', u.left ≤ s.left → u'.left ≤ s'.left →
      Tracks P (Paid P u) x x' u u') :
    Tracks P (Paid P s)
      (do
        modify before; let st ← x; modify after; return st)
      (do
        modify before; let st ← x'; modify after; return st)
          s s' := by
  refine (Tracks.modify (hBefore s)).bind ?_
  rintro _ t t' - hTook rfl hAs
  refine (hInside _ t' hTook.left_le (by omega)).bind ?_
  intro st u u' hLined₂ _ hPaid _
  refine (Tracks.modify (hAfter u)).bind ?_
  rintro _ v v' - hTook₃ rfl -
  exact .pure ((hPaid.later hLined₂ hTook₃).since hTook)

theorem block_tracks
    (hStatement :
      Tracked P s.left s'.left statement statement') :
    Tracks P (Paid P s) (block statement) (block statement')
      s s' :=
  enclosed_tracks
    (fun _ =>
      ⟨.of_eq rfl rfl rfl, fun _ => rfl, fun _ _ _ => rfl⟩)
    (fun _ =>
      ⟨.of_eq rfl rfl rfl, fun _ => rfl, fun _ _ _ => rfl⟩)
    fun _ _ hU hU' =>
      braced_tracks (hStatement.fewer hU (by omega))

theorem loopBody_tracks
    (hStatement : Tracked P (s.left + 1) (s'.left + 1)
      statement statement') :
    Tracks P (Paid P s) (loopBody statement)
      (loopBody statement') s s' :=
  enclosed_tracks
    (fun _ =>
      ⟨.of_eq rfl rfl rfl, fun _ => rfl, fun _ _ _ => rfl⟩)
    (fun _ =>
      ⟨.of_eq rfl rfl rfl, fun _ => rfl, fun _ _ _ => rfl⟩)
    fun u u' hU hU' => hStatement u u' (by omega) (by omega)

theorem choice_tracks
    (hStatement :
      Tracked P s.left s'.left statement statement')
    (hNext : s.lookahead ≠ .endOfFile) :
    Tracks P (Paid P s) (choice statement)
      (choice statement') s s' := by
  refine .look ?_ fun hAlike => by rw [hAlike.line]
  refine (Tracks.advance hNext).bind ?_
  intro _ t t' _ _ hTaken hAs
  refine condition_tracks.bind ?_
  intro decision u u' _ _ hDecision hAs₂
  have hProgress := hDecision.progress
  have hTest := hDecision.paid
  refine (hStatement u u' (by omega) (by omega)).bind ?_
  intro body v v' _ _ hBody hAs₃
  have hProgress₃ := hBody.progress
  have hCost := hBody.paid
  refine .accept ?_ ?_
  · intro hElse
    refine (Tracks.advance (hElse ▸ Token.noConfusion)).bind
      ?_
    intro _ w w' _ _ hTaken₄ hAs₄
    refine (hStatement w w' (by omega) (by omega)).bind ?_
    intro other x x' _ _ hOther _
    have hProgress₅ := hOther.progress
    have hMore := hOther.paid
    refine .pure ⟨by omega, ?_, List.forall_mem_nil _⟩
    rw [cost]
    omega
  · intro _
    refine .pure ⟨by omega, ?_, List.forall_mem_nil _⟩
    rw [cost]
    omega

theorem whileLoopOf_tracks
    (hStatement :
      Tracked P s.left s'.left statement statement')
    (hNext : s.lookahead ≠ .endOfFile) :
    Tracks P (Paid P s) (whileLoopOf statement)
      (whileLoopOf statement') s s' := by
  refine .look ?_ fun hAlike => by rw [hAlike.line]
  refine (Tracks.advance hNext).bind ?_
  intro _ t t' _ _ hTaken hAs
  refine condition_tracks.bind ?_
  intro decision u u' _ _ hDecision hAs₂
  have hProgress := hDecision.progress
  have hTest := hDecision.paid
  refine (loopBody_tracks
    (hStatement.fewer (by omega) (by omega))).bind ?_
  intro body v v' _ _ hBody _
  have hProgress₃ := hBody.progress
  have hCost := hBody.paid
  refine .pure ⟨by omega, ?_, List.forall_mem_nil _⟩
  rw [cost]
  omega

theorem doWhileOf_tracks
    (hStatement :
      Tracked P s.left s'.left statement statement')
    (hNext : s.lookahead ≠ .endOfFile) :
    Tracks P (Paid P s) (doWhileOf statement)
      (doWhileOf statement') s s' := by
  refine .look ?_ fun hAlike => by rw [hAlike.line]
  refine (Tracks.advance hNext).bind ?_
  intro _ t t' _ _ hTaken hAs
  refine (loopBody_tracks
    (hStatement.fewer (by omega) (by omega))).bind ?_
  intro body u u' _ hTook₂ hBody _
  have hProgress := hBody.progress
  have hCost := hBody.paid
  refine (Tracks.expect Token.noConfusion).bind ?_
  intro _ v v' _ _ hTaken₃ _
  refine condition_tracks.bind ?_
  intro decision w w' _ _ hDecision _
  have hProgress₄ := hDecision.progress
  have hTest := hDecision.paid
  refine (Tracks.expect Token.noConfusion).bind ?_
  intro _ x x' _ _ hTaken₅ _
  refine .pure ⟨by omega, ?_, List.forall_mem_nil _⟩
  rw [cost]
  omega

theorem one_tracked
    (hStatement : Tracked P n n' statement statement') :
    Tracked P (n + 1) (n' + 1) (one statement)
      (one statement') := by
  intro s s' hLeft hLeft'
  have hInner : Tracked P s.left s'.left statement
    statement' :=
    hStatement.fewer (by omega) (by omega)
  refine .look ?_ fun hAlike => by rw [hAlike.lookahead]
  split
  · rename_i hNext
    exact choice_tracks hInner (hNext ▸ Token.noConfusion)
  · rename_i hNext
    exact whileLoopOf_tracks hInner
      (hNext ▸ Token.noConfusion)
  · rename_i hNext
    exact doWhileOf_tracks hInner
      (hNext ▸ Token.noConfusion)
  · rename_i hNext
    exact returned_tracks (hNext ▸ Token.noConfusion)
  · rename_i hNext
    exact broken_tracks (hNext ▸ Token.noConfusion)
  · exact block_tracks hInner
  · rename_i hNext
    exact nothing_tracks (hNext ▸ Token.noConfusion)
  · exact declaration_tracks
  · rename_i name hNext
    exact leading_tracks (hNext ▸ Token.noConfusion)
  · exact evaluation_tracks

/- A statement, given how to read the statements in it. -/
def nestedTurn
    (again : Unit → Parse Stmt)
    (_ : Unit) : Parse Stmt :=
  one (again ())

theorem nested_repeats :
    Repeats nestedTurn fun m _ => nested m := by
  refine ⟨fun m => rfl, ?_⟩
  intro again _ s hEnd
  rw [nestedTurn, one, Step.get_bind, hEnd]
  rfl

theorem nestedTurn_guarded :
    Guarded P (fun _ _ => True) (fun _ => Paid P) nestedTurn
      nestedTurn s s' := by
  intro again again' hAgain _ _
  have hStatement : Tracked P s.left s'.left (again ())
    (again' ()) :=
    fun t t' => hAgain () t t' trivial
  exact one_tracked hStatement s s' (by omega) (by omega)

theorem parse_tracks :
    Tracks P (Paid P s) parse parse s s' :=
  .get (nested_repeats.tracks nested_repeats
    (fun _ _ _ _ => nestedTurn_guarded) (Nat.le_refl _)
      (Nat.le_refl _)
    () trivial)

end Stmt

end Bracketry
