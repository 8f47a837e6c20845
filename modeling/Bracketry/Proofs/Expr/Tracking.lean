import Bracketry.Expr.Parser
import Bracketry.Proofs.Discipline
import Bracketry.Proofs.Parser.Tracking

/-
  This file follows the reading of expressions: the tokens
  it takes pay for what writing the expression takes, faults
  lie on lines that were reached, and no token behind the
  next one is looked at.

  Main declarations:
    * `Expr.accessTurn` and `Expr.nestedTurn`
    * `Expr.primary_tracked` and `Expr.parse_tracks`
-/

namespace Bracketry

/- A place is paid with what its use takes. -/
abbrev Place.Paid (P : Prop) : Parser → Place →
    Parser → Prop :=
  Parser.Paid P (fun place => place.cost + 4) fun _ => []

namespace Expr

open Parse

variable {e : Expr} {line : Nat} {v : Parser}

/-
  The lines that a fault about an expression may report.  A
  sign that is cancelled brings up what stood behind it.
-/
def noted : Expr → List Nat
| .negate operand _ line => line :: operand.noted
| .not operand line => line :: operand.noted
| e => [e.line]

theorem line_mem_noted
    (e : Expr) :
    e.line ∈ e.noted := by
  cases e <;> simp [noted, line]

/- An expression is paid by the tokens taken for it. -/
abbrev Paid (P : Prop) : Parser → Expr → Parser → Prop :=
  Parser.Paid P cost noted

abbrev Tracked (P : Prop) : Nat → Nat → Parse Expr →
    Parse Expr → Prop :=
  Parse.Tracked P (Paid P)

theorem sum_cost
    (es : List Expr) :
    (es.map cost).sum = allCost es := by
  induction es with
  | nil => rfl
  | cons e rest ih =>
      rw [List.map_cons, List.sum_cons, allCost, ih]

------------------------------------------------------------
-- Checked Construction
------------------------------------------------------------

/-
  A node is built for a price, and on given lines lie faults
  and what is noted in the node.
-/
structure Joined
    (price : Nat)
    (lines : List Nat)
    (x : Except Fault Expr) : Prop where
  ok : ∀ e, x = .ok e → e.cost ≤ price ∧ e.noted ⊆ lines
  error : ∀ fault, x = .error fault → fault.line ∈ lines

namespace Joined

variable {price : Nat} {lines : List Nat}

theorem built
    (hPrice : e.cost ≤ price)
    (hLines : e.noted ⊆ lines) :
    Joined price lines (.ok e) :=
  ⟨by rintro _ ⟨⟩; exact ⟨hPrice, hLines⟩, by rintro _ ⟨⟩⟩

theorem failed
    (hLine : fault.line ∈ lines) :
    Joined price lines (.error fault) :=
  ⟨by rintro _ ⟨⟩, by rintro _ ⟨⟩; exact hLine⟩

/- A check comes first. -/
theorem bind
    {α : Type}
    {x : Except Fault α}
    {f : α → Except Fault Expr}
    (hCheck : ∀ fault, x = .error fault →
      fault.line ∈ lines)
    (hNext : ∀ a, Joined price lines (f a)) :
    Joined price lines (x >>= f) := by
  cases x with
  | ok a => exact hNext a
  | error fault => exact failed (hCheck fault rfl)

/- What was read before pays for the node. -/
theorem tracks
    {x : Except Fault Expr}
    (hJoined : Joined price lines x)
    (hProgress : s.left < o.left)
    (hPaid : price + 16 * s.left ≤ 16 * o.left)
    (hLines : ∀ line ∈ lines, s.Reached P line) :
    Tracks P (Paid P o) (Parse.ofExcept x)
      (Parse.ofExcept x) s s' := by
  refine .ofExcept ?_ ?_
  · intro e hOk
    rcases hJoined.ok e hOk with ⟨hPrice, hNoted⟩
    exact ⟨hProgress, by omega,
      fun line hMem => hLines line (hNoted hMem)⟩
  · intro fault hError
    exact hLines _ (hJoined.error fault hError)

end Joined

variable {P : Prop} {fault : Fault} {level : Level}
variable {o s s' u : Parser}

theorem requireCondition_line
    (hError : e.requireCondition line = .error fault) :
    fault.line = line := by
  unfold requireCondition at hError
  split at hError
  · cases hError
  · cases hError
    rfl

theorem ofInteger_joined
    (value : Int)
    (line : Nat) :
    Joined 0 [line] (ofInteger value line) := by
  unfold ofInteger
  split
  · exact .built (Nat.le_refl _) (List.Subset.refl _)
  · exact .failed List.mem_cons_self

theorem ofNegation_joined
    (operand : Expr)
    (line : Nat) :
    Joined (operand.cost + 7) (line :: operand.noted)
      (ofNegation operand line) := by
  unfold ofNegation
  split
  · rename_i inner t signLine
    refine .built ?_ ?_
    · rw [cost]
      omega
    · intro found hMem
      exact List.mem_cons_of_mem _
        (List.mem_cons_of_mem _ hMem)
  · split
    · exact .built (by rw [cost]; omega)
        (List.Subset.refl _)
    · exact .failed List.mem_cons_self

theorem ofInversion_joined
    (operand : Expr)
    (line : Nat) :
    Joined (operand.cost + 7) (line :: operand.noted)
      (ofInversion operand line) := by
  unfold ofInversion
  split
  · rename_i inner signLine
    refine .built ?_ ?_
    · rw [cost]
      omega
    · intro found hMem
      exact List.mem_cons_of_mem _
        (List.mem_cons_of_mem _ hMem)
  · refine .bind ?_ fun _ => ?_
    · intro fault hError
      exact List.mem_cons.mpr
        (.inl (requireCondition_line hError))
    · exact .built (Nat.le_refl _) (List.Subset.refl _)

theorem checkArguments_line :
    ∀ (args : List Expr) (params : List Ty) (fault : Fault),
      checkArguments args params = .error fault →
        ∃ arg ∈ args, fault.line = arg.line
| [], _, _, hError => by
    cases hError
| _ :: _, [], _, hError => by
    cases hError
| arg :: args, param :: params, fault, hError => by
    rw [checkArguments] at hError
    split at hError
    · rcases checkArguments_line args params fault
        hError with
        ⟨other, hMem, hLine⟩
      exact ⟨other, List.mem_cons_of_mem _ hMem, hLine⟩
    · cases hError
      exact ⟨arg, List.mem_cons_self, rfl⟩

theorem ofCall_joined
    (callee : Prototype)
    (args : List Expr)
    (line : Nat) :
    Joined (allCost args + 2) (line :: args.flatMap noted)
      (ofCall callee args line) := by
  unfold ofCall
  dsimp only
  split
  · exact .failed List.mem_cons_self
  · refine .bind ?_ fun _ => ?_
    · intro fault hError
      rcases checkArguments_line _ _ _ hError with
        ⟨arg, hMem, hLine⟩
      rw [hLine]
      exact List.mem_cons_of_mem _
        (List.mem_flatMap.mpr
          ⟨arg, hMem, arg.line_mem_noted⟩)
    · exact .built (Nat.le_refl _) (List.cons_subset_cons _
        (List.nil_subset _))

theorem commonType_line :
    ∀ (t : Ty) (es : List Expr) (fault : Fault),
      commonType t es = .error fault →
        ∃ e ∈ es, fault.line = e.line
| _, [], _, hError => by
    cases hError
| t, e :: rest, fault, hError => by
    rw [commonType] at hError
    split at hError
    · rename_i u hUnified
      rcases commonType_line u rest fault hError with
        ⟨other, hMem, hLine⟩
      exact ⟨other, List.mem_cons_of_mem _ hMem, hLine⟩
    · cases hError
      exact ⟨e, List.mem_cons_self, rfl⟩

theorem ofElements_joined
    (first : Expr)
    (rest : List Expr)
    (line : Nat) :
    Joined (allCost (first :: rest))
      (line :: rest.flatMap noted)
      (ofElements first rest line) := by
  unfold ofElements
  refine .bind ?_ fun _ => ?_
  · intro fault hError
    rcases commonType_line _ _ _ hError with
      ⟨e, hMem, hLine⟩
    rw [hLine]
    exact List.mem_cons_of_mem _
      (List.mem_flatMap.mpr ⟨e, hMem, e.line_mem_noted⟩)
  · exact .built (Nat.le_refl _)
      (List.cons_subset_cons _ (List.nil_subset _))

/- The characters of a string take nothing. -/
theorem ofString_cost
    (value : String)
    (line : Nat) :
    (ofString value line).cost = 0 := by
  unfold ofString
  rw [cost, ← sum_cost, List.map_map]
  induction value.toUTF8.toList with
  | nil => rfl
  | cons byte rest ih =>
      rw [List.map_cons, List.sum_cons, ih]; rfl

------------------------------------------------------------
-- Levels of Precedence
------------------------------------------------------------

/- A level joins at a fair price, before the end. -/
structure Level.Fair (level : Level) : Prop where
  ended : level .endOfFile = none
  joined : ∀ token join, level token = some join →
    ∀ left right line, Joined (left.cost + right.cost + 10)
      [line] (join left right line)

theorem joinOr_joined
    (left right : Expr)
    (line : Nat) :
    Joined (left.cost + right.cost + 10) [line]
      (joinOr left right line) :=
  .bind (fun _ hError =>
    List.mem_singleton.mpr (requireCondition_line hError))
    fun _ => .bind
      (fun _ hError => List.mem_singleton.mpr
        (requireCondition_line hError))
      fun _ => .built (Nat.le_refl _) (List.Subset.refl _)

theorem joinAnd_joined
    (left right : Expr)
    (line : Nat) :
    Joined (left.cost + right.cost + 10) [line]
      (joinAnd left right line) :=
  .bind (fun _ hError =>
    List.mem_singleton.mpr (requireCondition_line hError))
    fun _ => .bind
      (fun _ hError => List.mem_singleton.mpr
        (requireCondition_line hError))
      fun _ => .built (Nat.le_refl _) (List.Subset.refl _)

theorem joinCompare_joined
    (op : Comparison)
    (left right : Expr)
    (line : Nat) :
    Joined (left.cost + right.cost + 10) [line]
      (joinCompare op left right line) := by
  unfold joinCompare
  split
  · exact .built (by rw [cost]; omega) (List.Subset.refl _)
  · exact .failed List.mem_cons_self

theorem joinArithmetic_joined
    (op : Arithmetic)
    (left right : Expr)
    (line : Nat) :
    Joined (left.cost + right.cost + 10) [line]
      (joinArithmetic op left right line) := by
  unfold joinArithmetic
  split
  · exact .built (by rw [cost]; omega) (List.Subset.refl _)
  · exact .failed List.mem_cons_self

theorem levels_fair
    (hLevel : level ∈ levels) :
    level.Fair := by
  have hCases : level = orLevel ∨ level = andLevel ∨
      level = equalityLevel ∨
      level = orderLevel ∨ level = sumLevel ∨
        level = productLevel := by
    simpa [levels] using hLevel
  rcases hCases with rfl | rfl | rfl | rfl | rfl | rfl
  · refine ⟨rfl, fun token join hJoin left right line => ?_⟩
    unfold orLevel at hJoin
    split at hJoin <;> cases hJoin
    exact joinOr_joined left right line
  · refine ⟨rfl, fun token join hJoin left right line => ?_⟩
    unfold andLevel at hJoin
    split at hJoin <;> cases hJoin
    exact joinAnd_joined left right line
  · refine ⟨rfl, fun token join hJoin left right line => ?_⟩
    unfold equalityLevel at hJoin
    split at hJoin <;> cases hJoin <;>
      exact joinCompare_joined _ left right line
  · refine ⟨rfl, fun token join hJoin left right line => ?_⟩
    unfold orderLevel at hJoin
    split at hJoin <;> cases hJoin <;>
      exact joinCompare_joined _ left right line
  · refine ⟨rfl, fun token join hJoin left right line => ?_⟩
    unfold sumLevel at hJoin
    split at hJoin <;> cases hJoin <;>
      exact joinArithmetic_joined _ left right line
  · refine ⟨rfl, fun token join hJoin left right line => ?_⟩
    unfold productLevel at hJoin
    split at hJoin <;> cases hJoin <;>
      exact joinArithmetic_joined _ left right line

variable {n n' : Nat} {operand operand' : Parse Expr}

/- A further operand, if there is an operator. -/
def operandTurn
    (level : Level)
    (operand : Parse Expr)
    (again : Expr → Parse Expr)
    (left : Expr) : Parse Expr := do
  let s ← get
  match level s.lookahead with
  | none => return left
  | some join =>
      Parse.advance
      let right ← operand
      let joined ← Parse.ofExcept (join left right s.line)
      again joined

theorem operands_repeats
    (hFair : level.Fair)
    (operand : Parse Expr) :
    Repeats (operandTurn level operand)
      (operands level operand) := by
  refine ⟨fun m => rfl, ?_⟩
  intro again left s hEnd
  rw [operandTurn, Step.get_bind, hEnd, hFair.ended]
  rfl

/- Operands are added to what was read since an origin. -/
theorem operandTurn_guarded
    (hFair : level.Fair)
    (hOperand : Tracked P s.left s'.left operand operand') :
    Guarded P (fun left t => Paid P o left t)
      (fun _ _ => Paid P o)
      (operandTurn level operand)
        (operandTurn level operand') s s' := by
  intro again again' hAgain left hPaid
  refine .lined fun hLined => ?_
  refine .look ?_ fun hAlike => by
    rw [hAlike.lookahead, hAlike.line]
  split
  · exact .pure hPaid
  · rename_i join hNext
    have hToken : s.lookahead ≠ .endOfFile := by
      intro hEnd
      rw [hEnd, hFair.ended] at hNext
      cases hNext
    refine (Tracks.advance hToken).bind ?_
    intro _ t t' _ hTook hTaken hAs
    refine (hOperand t t' (by omega) (by omega)).bind ?_
    intro right u u' _ hTook₂ hRight hAs₂
    have hProgress := hRight.progress
    have hCost := hRight.paid
    have hBefore := hPaid.paid
    have hSince := hPaid.progress
    refine .bind (Q := Paid P o)
      ((hFair.joined _ _ hNext left right s.line).tracks
        (by omega) (by omega)
          (hLined.noted (hTook.trans hTook₂))) ?_
    intro joined v v' _ hTook₃ hJoined hAs₃
    have hLeft := hTook₃.left_le
    exact hAgain joined v v' hJoined (by omega) (by omega)

theorem binary_tracked
    (hFair : level.Fair)
    (hOperand : Tracked P n n' operand operand') :
    Tracked P n n' (binary level operand)
      (binary level operand') := by
  intro s s' hLeft hLeft'
  refine (hOperand s s' hLeft hLeft').bind ?_
  intro first t t' _ _ hFirst hAs
  have hProgress := hFirst.progress
  refine .get ?_
  exact (operands_repeats hFair operand).tracks
    (operands_repeats hFair operand')
    (fun u u' hU hU' => operandTurn_guarded hFair
      (hOperand.fewer (by omega) (by omega)))
    (Nat.le_refl _) (Nat.le_refl _) first hFirst

/- The same for some of the levels, one above the other. -/
theorem foldr_binary_tracked
    {some : List Level}
    (hSome : some ⊆ levels)
    (hOperand : Tracked P n n' operand operand') :
    Tracked P n n' (some.foldr binary operand)
      (some.foldr binary operand') := by
  induction some with
  | nil => exact hOperand
  | cons level rest ih =>
      rcases List.cons_subset.mp hSome with ⟨hLevel, hRest⟩
      exact binary_tracked (levels_fair hLevel) (ih hRest)

theorem ladder_tracked
    (hOperand : Tracked P n n' operand operand') :
    Tracked P n n' (ladder operand) (ladder operand') :=
  foldr_binary_tracked (List.Subset.refl _) hOperand

/- A further sign, or what stands behind the signs. -/
def signTurn
    (primary : Parse Expr)
    (again : Unit → Parse Expr)
    (_ : Unit) : Parse Expr := do
  let s ← get
  match s.lookahead with
  | .symbol .minus =>
      Parse.advance
      match (← get).lookahead with
      | .integer value =>
          Parse.advance
          Parse.ofExcept (ofInteger (-value) s.line)
      | .decimal value =>
          Parse.advance
          return .float value.neg s.line
      | _ =>
          let operand ← again ()
          Parse.ofExcept (ofNegation operand s.line)
  | .symbol .not =>
      Parse.advance
      let operand ← again ()
      Parse.ofExcept (ofInversion operand s.line)
  | _ => primary

theorem unaryUpTo_repeats
    (primary : Parse Expr) :
    Repeats (signTurn primary) fun m _ =>
      unaryUpTo primary m := by
  refine ⟨fun m => rfl, ?_⟩
  intro again _ s hEnd
  rw [signTurn, Step.get_bind, hEnd]
  rfl

/- A sign pays for the node above its operand. -/
theorem signed_tracks
    {sign : Expr → Nat → Except Fault Expr}
    {t t' : Parser}
    (hSign : ∀ e line,
      Joined (e.cost + 7) (line :: e.noted) (sign e line))
    (hLined : s.LinedIf P)
    (hTook : s.Took t)
    (hTaken : t.left < s.left)
    (hOperand : Tracks P (Paid P t) operand operand' t t') :
    Tracks P (Paid P s)
      (operand >>= fun e => Parse.ofExcept (sign e s.line))
      (operand' >>= fun e => Parse.ofExcept (sign e s.line))
        t t' := by
  refine hOperand.bind ?_
  intro e u u' _ hTook₂ hPaid _
  have hProgress := hPaid.progress
  have hCost := hPaid.paid
  refine (hSign e s.line).tracks (by omega) (by omega) ?_
  rw [List.forall_mem_cons]
  exact ⟨hLined.reached (hTook.trans hTook₂), hPaid.lines⟩

theorem signTurn_guarded
    (hOperand : Tracks P (Paid P s) operand operand' s s') :
    Guarded P (fun _ _ => True) (fun _ => Paid P)
      (signTurn operand) (signTurn operand') s s' := by
  intro again again' hAgain _ _
  refine .lined fun hLined => ?_
  refine .look ?_ fun hAlike => by
    rw [hAlike.lookahead, hAlike.line]
  split
  · rename_i hNext
    refine (Tracks.advance (hNext ▸ Token.noConfusion)).bind
      ?_
    intro _ t t' _ hTook hTaken hAs
    refine .look ?_ fun hAlike => by rw [hAlike.lookahead]
    split
    · rename_i value hNumber
      refine (Tracks.advance
        (hNumber ▸ Token.noConfusion)).bind ?_
      intro _ u u' _ hTook₂ hTaken₂ _
      exact (ofInteger_joined (-value) s.line).tracks
        (by omega) (by omega)
          (hLined.noted (hTook.trans hTook₂))
    · rename_i value hNumber
      refine (Tracks.advance
        (hNumber ▸ Token.noConfusion)).bind ?_
      intro _ u u' _ hTook₂ hTaken₂ _
      refine .pure
        ⟨by omega, ?_, hLined.noted (hTook.trans hTook₂)⟩
      rw [cost]
      omega
    · exact signed_tracks ofNegation_joined hLined hTook
        (by omega)
          (hAgain () t t' trivial (by omega) (by omega))
  · rename_i hNext
    refine (Tracks.advance (hNext ▸ Token.noConfusion)).bind
      ?_
    intro _ t t' _ hTook hTaken hAs
    exact signed_tracks ofInversion_joined hLined hTook
      (by omega)
        (hAgain () t t' trivial (by omega) (by omega))
  · exact hOperand

theorem unary_tracked
    (hOperand : Tracked P n n' operand operand') :
    Tracked P n n' (unary operand) (unary operand') := by
  intro s s' hLeft hLeft'
  refine .get ?_
  exact (unaryUpTo_repeats operand).tracks
    (unaryUpTo_repeats operand')
    (fun t t' hT hT' => signTurn_guarded
      (hOperand t t' (by omega) (by omega)))
    (Nat.le_refl _) (Nat.le_refl _) () trivial

variable {expression expression' : Parse Expr}

/- A further access, if there is a bracket. -/
def accessTurn
    (expression : Parse Expr)
    (again : Place → Parse Place)
    (place : Place) : Parse Place := do
  let s ← get
  if s.lookahead = .symbol .leftBracket then
    match place.ty with
    | .array _ element =>
        Parse.advance
        let index ← expression
        unless index.ty.IsIntegral do
          Parse.mistyped (.indexNotInteger index.ty) s.line
        Parse.expect (.symbol .rightBracket)
        again (.element place index element)
    | .record _ record members =>
        Parse.advance
        let name ← Parse.identifier
        match findMember? members name with
        | some (position, t) =>
            Parse.expect (.symbol .rightBracket)
            again (.member place position name t)
        | none => throw ⟨.unknownMember record name, s.line⟩
    | t =>
        Parse.mistyped (.notIndexable place.root.name t)
          s.line
  else
    return place

theorem accessUpTo_repeats
    (expression : Parse Expr) :
    Repeats (accessTurn expression)
      (accessUpTo expression) := by
  refine ⟨fun m => rfl, ?_⟩
  intro again place s hEnd
  have hNone : s.lookahead ≠ .symbol .leftBracket :=
    hEnd ▸ Token.noConfusion
  rw [accessTurn, Step.get_bind, if_neg hNone]
  rfl

theorem accessTurn_guarded
    (hExpression :
      Tracked P s.left s'.left expression expression') :
    Guarded P (fun place t => Place.Paid P o place t)
      (fun _ _ => Place.Paid P o)
      (accessTurn expression) (accessTurn expression')
        s s' := by
  intro again again' hAgain place hPaid
  have hProgress := hPaid.progress
  have hBefore := hPaid.paid
  refine .lined fun hLined => ?_
  refine .look ?_ fun hAlike => by
    rw [hAlike.lookahead, hAlike.line]
  split
  · rename_i hNext
    have hToken : s.lookahead ≠ .endOfFile :=
      hNext ▸ Token.noConfusion
    split
    · rename_i element hType
      refine (Tracks.advance hToken).bind ?_
      intro _ t t' _ hTook hTaken hAs
      refine (hExpression t t' (by omega) (by omega)).bind
        ?_
      intro index u u' _ hTook₂ hIndex hAs₂
      have hProgress₂ := hIndex.progress
      have hCost := hIndex.paid
      refine .require
        (.mistyped (hLined.reached (hTook.trans hTook₂)))
        fun _ => ?_
      refine (Tracks.expect Token.noConfusion).bind ?_
      intro _ v v' _ _ hTaken₃ hAs₃
      refine hAgain _ v v'
        ⟨by omega, ?_, List.forall_mem_nil _⟩ (by omega)
        (by omega)
      rw [Place.cost]
      omega
    · refine (Tracks.advance hToken).bind ?_
      intro _ t t' _ hTook hTaken hAs
      refine Tracks.identifier.bind ?_
      intro name u u' _ hTook₂ hTaken₂ hAs₂
      split
      · refine (Tracks.expect Token.noConfusion).bind ?_
        intro _ v v' _ _ hTaken₃ hAs₃
        refine hAgain _ v v'
          ⟨by omega, ?_, List.forall_mem_nil _⟩ (by omega)
          (by omega)
        rw [Place.cost]
        omega
      · exact .throw (hLined.reached (hTook.trans hTook₂))
    · exact .mistyped hLined.here
  · exact .pure hPaid

/- The name before the brackets pays for the variable. -/
theorem access_tracks
    {root : Identifier}
    (hExpression :
      Tracked P s.left s'.left expression expression')
    (hTaken : s.left + 1 = o.left) :
    Tracks P (Place.Paid P o) (access expression root)
      (access expression' root) s s' := by
  refine .get ?_
  refine (accessUpTo_repeats expression).tracks
    (accessUpTo_repeats expression')
    (fun t t' hT hT' => accessTurn_guarded
      (hExpression.fewer hT (by omega)))
    (Nat.le_refl _) (Nat.le_refl _) (.var root)
    ⟨by omega, ?_, List.forall_mem_nil _⟩
  rw [Place.cost]
  omega

------------------------------------------------------------
-- Calls and Array Literals
------------------------------------------------------------

theorem reached_flatMap
    {es : List Expr}
    (hPaid : Parser.AllPaid P cost noted o es s) :
    ∀ line ∈ es.flatMap noted, s.Reached P line := by
  intro line hMem
  rcases List.mem_flatMap.mp hMem with ⟨e, hMemE, hMemLine⟩
  exact hPaid.lines e hMemE line hMemLine

/- The bracket and the name pay for the call. -/
theorem callArguments_tracks
    {callee : Prototype}
    (hExpression :
      Tracked P s.left s'.left expression expression')
    (hTaken : s.left + 2 = o.left)
    (hLine : s.Reached P line) :
    Tracks P (Paid P o)
      (callArguments expression callee line)
      (callArguments expression' callee line) s s' := by
  refine .lined fun hLined => ?_
  have hClose : ∀ (args : List Expr) (t t' : Parser),
      s.Took t → Parser.AllPaid P cost noted s args t →
      Tracks P (Paid P o)
        (do Parse.expect (.symbol .rightBracket)
            Parse.ofExcept (ofCall callee args line))
        (do Parse.expect (.symbol .rightBracket)
            Parse.ofExcept (ofCall callee args line))
              t t' := by
    intro args t t' hTook hArgs
    have hLe := hTook.left_le
    refine .lined fun hLined₁ => ?_
    refine (Tracks.expect Token.noConfusion).bind ?_
    intro _ u u' _ hTook₂ hTaken₂ _
    have hAll := hArgs.later hLined₁ hTook₂
    have hCost := hAll.paid
    rw [sum_cost] at hCost
    refine (ofCall_joined callee args line).tracks
      (by omega) (by omega) ?_
    rw [List.forall_mem_cons]
    exact ⟨hLine.later hLined (hTook.trans hTook₂),
      reached_flatMap hAll⟩
  refine .accept ?_ ?_
  · intro hNext
    refine (Tracks.advance (hNext ▸ Token.noConfusion)).bind
      ?_
    intro _ t t' _ hTook hColon hAs
    refine (separated_tracks
      (hExpression.fewer (by omega) (by omega))).bind ?_
    rintro args u u' - hTook₂ ⟨-, hArgs⟩ -
    exact hClose args u u' (hTook.trans hTook₂)
      (hArgs.since hTook)
  · intro _
    exact hClose [] s s' .refl .nil

theorem constant_tracked
    (hExpression : Tracked P n n' expression expression') :
    Tracked P n n' (constant expression)
      (constant expression') := by
  intro s s' hLeft hLeft'
  refine (hExpression s s' hLeft hLeft').bind ?_
  intro e t t' _ _ hPaid _
  exact .require
    (.mistyped (hPaid.lines e.line e.line_mem_noted))
      fun _ =>
        .pure hPaid

theorem arrayLiteral_tracks
    (hExpression : Tracked P (s.left + 1) (s'.left + 1)
      expression expression')
    (hTaken : s.left + 1 = o.left)
    (hLine : s.Reached P line) :
    Tracks P (Paid P o) (arrayLiteral expression line)
      (arrayLiteral expression' line) s s' := by
  refine .lined fun hLined => ?_
  have hConstant := constant_tracked hExpression
  refine .look ?_ fun hAlike => by rw [hAlike.lookahead]
  refine .refuse (.mistyped hLine) fun _ => ?_
  refine (hConstant s s' (by omega) (by omega)).bind ?_
  intro first t t' hLined₁ hTook hFirst hAs
  have hProgress := hFirst.progress
  refine .get ?_
  refine (moreItems_tracks
    (hConstant.fewer (by omega) (by omega))
    (Nat.le_refl _) (Nat.le_refl _)).bind ?_
  intro rest u u' hLined₂ hTook₂ hRest _
  have hCost := (hRest.cons hFirst hLined₁ hTook₂).paid
  rw [sum_cost] at hCost
  have hLe := hTook₂.left_le
  refine (Tracks.expect Token.noConfusion).bind ?_
  intro _ v v' _ hTook₃ hTaken₃ _
  refine (ofElements_joined first rest line).tracks
    (by omega) (by omega) ?_
  rw [List.forall_mem_cons]
  exact ⟨hLine.later hLined
    ((hTook.trans hTook₂).trans hTook₃),
    reached_flatMap (hRest.later hLined₂ hTook₃)⟩

/-
  A token was ahead, so after it there are fewer for what
  the brackets, parentheses and names enclose.
-/
theorem bracketed_tracks
    (hExpression :
      Tracked P s.left s'.left expression expression')
    (hNext : s.lookahead ≠ .endOfFile) :
    Tracks P (Paid P s) (bracketed expression s.line)
      (bracketed expression' s.line) s s' := by
  refine .lined fun hLined => ?_
  refine (Tracks.advance hNext).bind ?_
  intro _ t t' _ hTook hTaken hAs
  refine .look ?_ fun hAlike => by
    rw [hAlike.lookahead, hAlike.scope]
  dsimp only
  split
  · rename_i callee hCallee
    have hName : t.lookahead ≠ .endOfFile := by
      intro hEnd
      rw [hEnd] at hCallee
      cases hCallee
    refine (Tracks.advance hName).bind ?_
    intro _ u u' _ hTook₂ hTaken₂ hAs₂
    exact callArguments_tracks
      (hExpression.fewer (by omega) (by omega))
      (by omega) (hLined.reached (hTook.trans hTook₂))
  · exact arrayLiteral_tracks
      (hExpression.fewer (by omega) (by omega))
      hTaken (hLined.reached hTook)

theorem named_tracks
    {name : String}
    (hExpression :
      Tracked P s.left s'.left expression expression')
    (hNext : s.lookahead ≠ .endOfFile) :
    Tracks P (Paid P s) (named expression name s.line)
      (named expression' name s.line) s s' := by
  refine .lined fun hLined => ?_
  refine .look ?_ fun hAlike => by rw [hAlike.scope]
  split
  · refine (Tracks.advance hNext).bind ?_
    intro _ t t' _ hTook hTaken hAs
    refine (access_tracks
      (hExpression.fewer (by omega) (by omega))
      hTaken).bind ?_
    intro place u u' _ hTook₂ hPlace _
    have hCost := hPlace.paid
    refine .pure ⟨hPlace.progress, ?_,
      hLined.noted (hTook.trans hTook₂)⟩
    rw [cost]
    omega
  · rename_i callee _
    refine (Tracks.advance hNext).bind ?_
    intro _ t t' _ hTook hTaken _
    refine (ofCall_joined callee [] s.line).tracks
      (by omega) ?_ (hLined.noted hTook)
    rw [allCost]
    omega
  · exact .throw hLined.here

theorem grouped_tracks
    (hExpression :
      Tracked P s.left s'.left expression expression')
    (hNext : s.lookahead ≠ .endOfFile) :
    Tracks P (Paid P s) (grouped expression)
      (grouped expression') s s' := by
  refine (Tracks.advance hNext).bind ?_
  intro _ t t' _ hTook hTaken hAs
  refine (hExpression t t' (by omega) (by omega)).bind ?_
  intro e u u' hLined₂ _ hPaid _
  refine (Tracks.expect Token.noConfusion).bind ?_
  intro _ v v' _ hTook₃ _ _
  exact .pure ((hPaid.later hLined₂ hTook₃).since hTook)

/- A literal is a token, which pays for it. -/
theorem literal_tracks
    (hNext : s.lookahead ≠ .endOfFile)
    (hCost : e.cost ≤ 1)
    (hNoted : e.noted = [s.line]) :
    Tracks P (Paid P s) (do Parse.advance; return e)
      (do Parse.advance; return e) s s' := by
  refine .lined fun hLined => ?_
  refine (Tracks.advance hNext).bind ?_
  intro _ t t' _ hTook hTaken _
  exact .pure
    ⟨by omega, by omega, hNoted ▸ hLined.noted hTook⟩

theorem primary_tracked
    (hExpression : Tracked P n n' expression expression') :
    Tracked P (n + 1) (n' + 1) (primary expression)
      (primary expression') := by
  intro s s' hLeft hLeft'
  have hInner : Tracked P s.left s'.left expression
    expression' :=
    hExpression.fewer (by omega) (by omega)
  refine .lined fun hLined => ?_
  refine .look ?_ fun hAlike => by
    rw [hAlike.lookahead, hAlike.line]
  split
  · rename_i hNext
    exact grouped_tracks hInner (hNext ▸ Token.noConfusion)
  · rename_i hNext
    exact bracketed_tracks hInner
      (hNext ▸ Token.noConfusion)
  · rename_i name hNext
    exact named_tracks hInner (hNext ▸ Token.noConfusion)
  · rename_i value hNext
    refine (Tracks.advance (hNext ▸ Token.noConfusion)).bind
      ?_
    intro _ t t' _ hTook hTaken _
    exact (ofInteger_joined value s.line).tracks (by omega)
      (by omega) (hLined.noted hTook)
  · rename_i value hNext
    exact literal_tracks (hNext ▸ Token.noConfusion)
      (Nat.zero_le _) rfl
  · rename_i value hNext
    exact literal_tracks (hNext ▸ Token.noConfusion)
      (Nat.le_refl _) rfl
  · rename_i value hNext
    refine literal_tracks (hNext ▸ Token.noConfusion) ?_ rfl
    rw [ofString_cost]
    exact Nat.zero_le _
  · exact .unexpected _

theorem binary_of_error
    (hError : operand u = .error fault v) :
    binary level operand u = .error fault v :=
  Step.bind_of_error hError

theorem ladder_of_error
    (hError : operand u = .error fault v) :
    ladder operand u = .error fault v := by
  unfold ladder
  induction levels with
  | nil => exact hError
  | cons level rest ih => exact binary_of_error ih

/- At the end of the file there is no expression. -/
theorem ladder_of_end
    (hEnd : u.lookahead = .endOfFile) :
    ladder (unary (primary expression)) u =
      Parse.unexpected .expression u := by
  have hPrimary : primary expression u =
      Parse.unexpected .expression u := by
    rw [primary, Step.get_bind, hEnd]
  have hUnary : unary (primary expression) u =
      Parse.unexpected .expression u := by
    rw [unary, Step.get_bind,
      (unaryUpTo_repeats _).eq_turn (Nat.le_refl _) (),
        signTurn,
      Step.get_bind, hEnd]
    exact hPrimary
  exact ladder_of_error hUnary

/- An expression, given how to read those in it. -/
def nestedTurn
    (again : Unit → Parse Expr)
    (_ : Unit) : Parse Expr :=
  ladder (unary (primary (again ())))

theorem nested_repeats :
    Repeats nestedTurn fun m _ => nested m :=
  ⟨fun _ => rfl,
    fun _ _ _ hEnd => (ladder_of_end hEnd).symm⟩

theorem nestedTurn_guarded :
    Guarded P (fun _ _ => True) (fun _ => Paid P) nestedTurn
      nestedTurn s s' := by
  intro again again' hAgain _ _
  have hExpression : Tracked P s.left s'.left (again ())
    (again' ()) :=
    fun t t' => hAgain () t t' trivial
  exact ladder_tracked
    (unary_tracked (primary_tracked hExpression)) s s'
    (by omega) (by omega)

theorem parse_tracks :
    Tracks P (Paid P s) parse parse s s' :=
  .get (nested_repeats.tracks nested_repeats
    (fun _ _ _ _ => nestedTurn_guarded) (Nat.le_refl _)
      (Nat.le_refl _)
    () trivial)

end Expr

end Bracketry
