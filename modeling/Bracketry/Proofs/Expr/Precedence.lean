import Bracketry.Proofs.Expr.Rendering

/-
  This file shows that the levels of precedence read
  operators back.

  Reading stops in front of a token that no level continues
  with.  Operators of one level join from the left, so what
  is shown of a tree is how far its tokens bring the loop of
  its own level; behind them the loop stops, or goes on with
  one more operand.

  Main declarations:
    * `Expr.ReadOn` and `Expr.Returns`
    * `Expr.Returns.arithmetic` and `Expr.Returns.negate`
-/

namespace Bracketry

namespace Expr

variable (line : Nat)

/- Reading from a level up, with a bound on the nesting. -/
def climb (depth k : Nat) : Parse Expr :=
  (levels.drop k).foldr binary
    (unary (primary (nested depth)))

variable {level : Level} {left right : Expr}
variable {operand : Expr}

theorem climb_eq_binary
    {k : Nat}
    (hLevel : levels[k]? = some level)
    (depth : Nat) :
    climb depth k = binary level (climb depth (k + 1)) := by
  rcases List.getElem?_eq_some_iff.mp hLevel with
    ⟨hBound, rfl⟩
  rw [climb, List.drop_eq_getElem_cons hBound]
  rfl

/-
  A token in front of which reading stops on all levels from
  a given one up, and behind a variable.
-/
def Halts (k : Nat) (t : Token) : Prop :=
  t ≠ .symbol .leftBracket ∧
    ∀ level ∈ levels.drop k, (level t).isNone = true

instance (k : Nat) (t : Token) : Decidable (Halts k t) := by
  unfold Halts
  infer_instance

theorem Halts.succ
    {k : Nat}
    {t : Token}
    (hHalts : Halts k t) :
    Halts (k + 1) t := by
  refine ⟨hHalts.1, fun level hMem => hHalts.2 level ?_⟩
  rw [← List.drop_drop] at hMem
  exact List.mem_of_mem_drop hMem

/-
  In front of a token that halts it, reading from a level up
  gives a tree for its tokens.
-/
def ReadAt
    (σ : Scope)
    (k : Nat)
    (tokens : List Token)
    (e : Expr) : Prop :=
  ∀ depth s s', tokens.length ≤ depth → s.Ahead tokens s' →
    s'.scope = σ → Halts k s'.lookahead →
      ∃ e', climb depth k s = .ok e' s' ∧
        e'.unlined = e.unlined

/-
  In front of a token that halts the levels above, reading
  on a level comes to the tree, and goes on behind its
  tokens.
-/
def ReadOn
    (σ : Scope)
    (k : Nat)
    (tokens : List Token)
    (e : Expr) : Prop :=
  ∃ level, levels[k]? = some level ∧
    ∀ depth s s', tokens.length ≤ depth →
      s.Ahead tokens s' → s'.scope = σ →
        Halts (k + 1) s'.lookahead →
        ∃ e' turns, s'.left ≤ turns ∧
          e'.unlined = e.unlined ∧ climb depth k s =
            operands level (climb depth (k + 1)) turns e' s'

variable {σ : Scope} {k : Nat} {tokens more : List Token}
    {e : Expr}

theorem mem_drop_of_level
    (hLevel : levels[k]? = some level) :
    level ∈ levels.drop k := by
  rcases List.getElem?_eq_some_iff.mp hLevel with
    ⟨hBound, rfl⟩
  rw [List.drop_eq_getElem_cons hBound]
  exact List.mem_cons_self

/- What is read on the levels above is the first operand. -/
theorem ReadAt.readOn
    (hRead : ReadAt σ (k + 1) tokens e)
    (hBound : k < 6) :
    ReadOn σ k tokens e := by
  have hLevel : levels[k]? = some levels[k] :=
    List.getElem?_eq_getElem hBound
  refine ⟨levels[k], hLevel, ?_⟩
  intro depth s s' hDepth hAhead hScope hHalts
  rcases hRead depth s s' hDepth hAhead hScope hHalts with
    ⟨e', hOk, hSame⟩
  refine ⟨e', s'.left, Nat.le_refl _, hSame, ?_⟩
  rw [climb_eq_binary hLevel, binary, Step.bind_of_ok hOk]
  rfl

/- In front of a token of no level the loop stops. -/
theorem ReadOn.readAt
    (hRead : ReadOn σ k tokens e) :
    ReadAt σ k tokens e := by
  rcases hRead with ⟨level, hLevel, hRead⟩
  intro depth s s' hDepth hAhead hScope hHalts
  rcases hRead depth s s' hDepth hAhead hScope
    hHalts.succ with
    ⟨e', turns, -, hSame, hOk⟩
  refine ⟨e', ?_, hSame⟩
  have hNone : level s'.lookahead = none :=
    Option.isNone_iff_eq_none.mp
      (hHalts.2 level (mem_drop_of_level hLevel))
  rw [hOk]
  cases turns with
  | zero => rfl
  | succ turns =>
      rw [operands, Step.get_bind, hNone]
      rfl

/- What is read above all levels is read on each of them. -/
theorem ReadAt.descend
    (hRead : ReadAt σ k tokens e)
    {j : Nat}
    (hLe : j ≤ k)
    (hBound : k ≤ 6) :
    ReadAt σ j tokens e := by
  induction hLe with
  | refl => exact hRead
  | @step k hLe ih =>
      exact ih (hRead.readOn hBound).readAt
        (Nat.le_of_succ_le hBound)

/- The loop goes on with an operator and an operand. -/
theorem ReadOn.join
    {t : Token}
    {node : Expr → Expr → Nat → Except Fault Expr}
    (hLevel : levels[k]? = some level)
    (hNode : level t = some node)
    (hHalts : Halts (k + 1) t)
    (hLeft : ReadOn σ k tokens left)
    (hRight : ReadAt σ (k + 1) more right)
    (hJoin :
      ∀ left' right' line,
        left'.unlined = left.unlined →
          right'.unlined = right.unlined →
          ∃ e', node left' right' line = .ok e' ∧
            e'.unlined = e.unlined) :
    ReadOn σ k (tokens ++ t :: more) e := by
  rcases hLeft with ⟨level', hLevel', hLeft⟩
  cases hLevel.symm.trans hLevel'
  refine ⟨level, hLevel, ?_⟩
  intro depth s s' hDepth hAhead hScope hNext
  rw [List.length_append, List.length_cons] at hDepth
  rcases hAhead.append with ⟨s₁, hFront, hBack⟩
  have hOperator : s₁.lookahead = t := hBack.lookahead_eq
  rcases hBack.advance with ⟨s₂, hAdvance, -, hMore⟩
  rcases hLeft depth s s₁ (by omega) hFront
    (hBack.scope_eq.trans hScope)
    (hOperator ▸ hHalts) with
      ⟨left', turns, hTurns, hSameLeft, hOk⟩
  rcases hRight depth s₂ s' (by omega) hMore hScope
    hNext with
    ⟨right', hOkRight, hSameRight⟩
  rcases hJoin left' right' s₁.line hSameLeft
    hSameRight with
    ⟨e', hNodeOk, hSame⟩
  -- a turn takes an operator at least, so the turns left
  -- are enough
  have hLeftOver : s₁.left = more.length + 1 + s'.left :=
    hBack.left_eq
  cases turns with
  | zero => omega
  | succ turns =>
      refine ⟨e', turns, by omega, hSame, ?_⟩
      rw [hOk, operands, Step.get_bind, hOperator, hNode]
      change (Parse.advance >>= _) s₁ = _
      rw [Step.bind_of_ok hAdvance,
        Step.bind_of_ok hOkRight, hNodeOk]
      rfl

------------------------------------------------------------
-- Signs and Parentheses
------------------------------------------------------------

theorem climb_six
    (depth : Nat) :
    climb depth 6 = unary (primary (nested depth)) := rfl

/- Without a sign a primary expression is read alone. -/
theorem unary_of_primary
    {expression : Parse Expr}
    {s s' : Parser}
    (hLeft : 0 < s.left)
    (hOk : primary expression s = .ok e s') :
    unary (primary expression) s = .ok e s' := by
  rw [unary, Step.get_bind]
  rcases Nat.exists_eq_add_one.mpr hLeft with
    ⟨turns, hTurns⟩
  rw [hTurns, unaryUpTo, Step.get_bind]
  cases hToken : s.lookahead with
  | symbol which =>
      cases which with
      | minus =>
          rw [primary, Step.get_bind, hToken] at hOk
          cases hOk
      | not =>
          rw [primary, Step.get_bind, hToken] at hOk
          cases hOk
      | _ => exact hOk
  | _ => exact hOk

/- A minus sign in front of what is no number. -/
theorem unary_minus
    (p : Parse Expr)
    {s s₁ : Parser}
    (hMinus : s.lookahead = .symbol .minus)
    (hAdvance : Parse.advance s = .ok () s₁)
    (hLeft : s.left = s₁.left + 1)
    (hNumber : ¬ s₁.lookahead.IsNumber) :
    unary p s =
      (unary p >>= fun operand =>
        Parse.ofExcept (ofNegation operand s.line)) s₁ := by
  rw [unary, Step.get_bind, hLeft, unaryUpTo,
    Step.get_bind, hMinus]
  change (Parse.advance >>= _) s = _
  rw [Step.bind_of_ok hAdvance, Step.get_bind]
  cases hToken : s₁.lookahead with
  | integer value =>
      rw [hToken] at hNumber
      exact absurd trivial hNumber
  | decimal value =>
      rw [hToken] at hNumber
      exact absurd trivial hNumber
  | _ => rfl

/- An exclamation mark. -/
theorem unary_not
    (p : Parse Expr)
    {s s₁ : Parser}
    (hNot : s.lookahead = .symbol .not)
    (hAdvance : Parse.advance s = .ok () s₁)
    (hLeft : s.left = s₁.left + 1) :
    unary p s =
      (unary p >>= fun operand =>
        Parse.ofExcept (ofInversion operand s.line))
          s₁ := by
  rw [unary, Step.get_bind, hLeft, unaryUpTo,
    Step.get_bind, hNot]
  change (Parse.advance >>= _) s = _
  rw [Step.bind_of_ok hAdvance]
  rfl

theorem ofNegation_eq
    (hNumeric : operand.ty.IsNumeric)
    (hNegation : ¬ operand.IsNegation) :
    ofNegation operand line =
      .ok (.negate operand operand.ty line) := by
  unfold ofNegation
  split
  · exact absurd trivial hNegation
  · exact if_pos hNumeric

theorem requireCondition_of_bool
    (hBool : operand.ty = .bool) :
    operand.requireCondition line = .ok () :=
  if_pos (.inr hBool)

theorem ofInversion_eq
    (hBool : operand.ty = .bool)
    (hInversion : ¬ operand.IsInversion) :
    ofInversion operand line = .ok (.not operand line) := by
  unfold ofInversion
  split
  · exact absurd trivial hInversion
  · rw [requireCondition_of_bool line hBool]
    rfl

/- Behind a minus sign stands what is no number. -/
theorem ReadAt.negate
    {t : Token}
    (hRead : ReadAt σ 6 (t :: tokens) operand)
    (hNumber : ¬ t.IsNumber)
    (hNumeric : operand.ty.IsNumeric)
    (hNegation : ¬ operand.IsNegation) :
    ReadAt σ 6 (.symbol .minus :: t :: tokens)
      (.negate operand operand.ty line) := by
  intro depth s s' hDepth hAhead hScope hHalts
  rcases hAhead.advance with ⟨s₁, hAdvance, hLeft, hMore⟩
  rcases hRead depth s₁ s' (Nat.le_of_succ_le hDepth) hMore
    hScope hHalts with
    ⟨operand', hOk, hSame⟩
  have hTy := ty_of_unlined hSame
  have hNode :=
    ofNegation_eq s.line (hTy ▸ hNumeric)
      (mt (isNegation_of_unlined hSame).mp hNegation)
  rw [climb_six] at hOk
  refine ⟨.negate operand' operand'.ty s.line, ?_, ?_⟩
  · rw [climb_six, unary_minus _ hAhead.lookahead_eq
      hAdvance hLeft (hMore.lookahead_eq ▸ hNumber),
        Step.bind_of_ok hOk, hNode]
    rfl
  · rw [unlined, unlined, hSame, hTy]

/- Behind an exclamation mark a condition follows. -/
theorem ReadAt.not
    (hRead : ReadAt σ 6 tokens operand)
    (hBool : operand.ty = .bool)
    (hInversion : ¬ operand.IsInversion) :
    ReadAt σ 6 (.symbol .not :: tokens)
      (.not operand line) := by
  intro depth s s' hDepth hAhead hScope hHalts
  rcases hAhead.advance with ⟨s₁, hAdvance, hLeft, hMore⟩
  rcases hRead depth s₁ s' (Nat.le_of_succ_le hDepth) hMore
    hScope hHalts with
    ⟨operand', hOk, hSame⟩
  have hNode :=
    ofInversion_eq s.line
      ((ty_of_unlined hSame).trans hBool)
      (mt (isInversion_of_unlined hSame).mp hInversion)
  rw [climb_six] at hOk
  refine ⟨.not operand' s.line, ?_, ?_⟩
  · rw [climb_six, unary_not _ hAhead.lookahead_eq hAdvance
      hLeft, Step.bind_of_ok hOk, hNode]
    rfl
  · rw [unlined, unlined, hSame]

/- A nested expression is read from the lowest level up. -/
theorem ReadAt.nested
    (hRead : ReadAt σ 0 tokens e)
    (depth : Nat)
    {s s' : Parser}
    (hDepth : tokens.length < depth)
    (hAhead : s.Ahead tokens s')
    (hScope : s'.scope = σ)
    (hHalts : Halts 0 s'.lookahead) :
    ∃ e', Expr.nested depth s = .ok e' s' ∧
      e'.unlined = e.unlined := by
  cases depth with
  | zero => omega
  | succ depth =>
      exact hRead depth s s' (Nat.le_of_lt_succ hDepth)
        hAhead hScope hHalts

/- A primary expression is read above all levels. -/
theorem readAt_of_primary
    (hSome : tokens ≠ [])
    (hPrimary :
      ∀ depth s s', tokens.length ≤ depth →
        s.Ahead tokens s' → s'.scope = σ →
          Halts 6 s'.lookahead →
          ∃ e', primary (Expr.nested depth) s = .ok e' s' ∧
            e'.unlined = e.unlined) :
    ReadAt σ 6 tokens e := by
  intro depth s s' hDepth hAhead hScope hHalts
  rcases hPrimary depth s s' hDepth hAhead hScope
    hHalts with
    ⟨e', hOk, hSame⟩
  have hLeft : 0 < s.left := by
    have hLength := List.length_pos_iff.mpr hSome
    have hSum := hAhead.left_eq
    omega
  exact ⟨e', unary_of_primary hLeft hOk, hSame⟩

/- Parentheses make a primary expression of any other. -/
theorem ReadAt.grouped
    (hRead : ReadAt σ 0 tokens e) :
    ReadAt σ 6 (parenthesized true tokens) e := by
  apply readAt_of_primary (List.cons_ne_nil _ _)
  intro depth s s' hDepth hAhead hScope hHalts
  rw [List.length_cons, List.length_append] at hDepth
  rcases hAhead.advance with ⟨s₁, hAdvance, -, hMore⟩
  rcases hMore.append with ⟨s₂, hInner, hClosing⟩
  rcases hClosing.expect with ⟨s₃, hExpect, hEnd⟩
  cases hEnd.eq_of_nil
  rcases hRead.nested depth (by omega) hInner
    (hClosing.scope_eq.trans hScope)
    (hClosing.lookahead_eq ▸ by decide) with
      ⟨e', hOk, hSame⟩
  refine ⟨e', ?_, hSame⟩
  rw [primary, Step.get_bind, hAhead.lookahead_eq]
  change Expr.grouped _ s = _
  rw [Expr.grouped, Step.bind_of_ok hAdvance,
    Step.bind_of_ok hOk, Step.bind_of_ok hExpect]
  rfl

/-
  A tree is read back: on the level of its operator, or
  above all of them.
-/
def Returns (σ : Scope) (e : Expr) : Prop :=
  (e.level < 6 → ReadOn σ e.level e.render e) ∧
    (6 ≤ e.level → ReadAt σ 6 e.render e)

namespace Returns

theorem readAt
    (hReturns : Returns σ e)
    (hLevel : k ≤ e.level)
    (hBound : k ≤ 6) :
    ReadAt σ k e.render e := by
  by_cases hBinary : e.level < 6
  · exact (hReturns.1 hBinary).readAt.descend hLevel
      (Nat.le_of_lt hBinary)
  · exact (hReturns.2 (Nat.le_of_not_lt hBinary)).descend
      hBound (Nat.le_refl 6)

theorem readAt_zero
    (hReturns : Returns σ e) :
    ReadAt σ 0 e.render e :=
  hReturns.readAt (Nat.zero_le _) (Nat.zero_le _)

theorem grouped
    (hReturns : Returns σ e)
    (hBound : k ≤ 6) :
    ReadAt σ k (parenthesized true e.render) e :=
  hReturns.readAt_zero.grouped.descend hBound
    (Nat.le_refl 6)

/- Parentheses lift what stands on a lower level. -/
theorem readAt_parenthesized
    (hReturns : Returns σ e)
    (hBound : k ≤ 6) :
    ReadAt σ k (parenthesized (e.level < k) e.render)
      e := by
  by_cases hLow : e.level < k
  · rw [decide_eq_true hLow]
    exact hReturns.grouped hBound
  · rw [decide_eq_false hLow]
    exact hReturns.readAt (Nat.le_of_not_lt hLow) hBound

/- On its own level a tree needs no parentheses. -/
theorem readOn_parenthesized
    (hReturns : Returns σ e)
    (hBound : k < 6) :
    ReadOn σ k (parenthesized (e.level < k) e.render)
      e := by
  by_cases hLow : e.level < k
  · rw [decide_eq_true hLow]
    exact (hReturns.grouped hBound).readOn hBound
  · rw [decide_eq_false hLow]
    rcases Nat.eq_or_lt_of_le (Nat.le_of_not_lt hLow) with
      rfl | hHigh
    · exact hReturns.1 hBound
    · exact (hReturns.readAt hHigh hBound).readOn hBound

theorem readAt_negated
    (hReturns : Returns σ e) :
    ReadAt σ 6 (parenthesized (e.isNumber || e.level < 6)
      e.render) e := by
  cases e.isNumber with
  | true => exact hReturns.grouped (Nat.le_refl 6)
  | false =>
      exact hReturns.readAt_parenthesized (Nat.le_refl 6)

/-
  Two operands that are read back give their node back, if
  the node depends on the types of its operands only.
-/
theorem join
    {level : Level}
    {t : Token}
    {node : Expr → Expr → Nat → Except Fault Expr}
    {left right : Expr}
    (tree : Expr → Expr → Nat → Expr)
    (line : Nat)
    (hLeft : Returns σ left)
    (hRight : Returns σ right)
    (hLevel : levels[k]? = some level)
    (hNode : level t = some node)
    (hHalts : Halts (k + 1) t)
    (hTree :
      ∀ left' right' n,
        (tree left' right' n).unlined =
          tree left'.unlined right'.unlined 0)
    (hJoin :
      ∀ left' right' n, left'.ty = left.ty →
        right'.ty = right.ty →
        node left' right' n = .ok (tree left' right' n)) :
    ReadOn σ k
      (parenthesized (left.level < k) left.render ++
        t ::
          parenthesized (right.level < k + 1) right.render)
      (tree left right line) := by
  have hBound : k < 6 :=
    (List.getElem?_eq_some_iff.mp hLevel).1
  refine ReadOn.join hLevel hNode hHalts
    (hLeft.readOn_parenthesized hBound)
    (hRight.readAt_parenthesized hBound) ?_
  intro left' right' n hSameLeft hSameRight
  refine ⟨tree left' right' n, ?_, ?_⟩
  · exact hJoin left' right' n (ty_of_unlined hSameLeft)
      (ty_of_unlined hSameRight)
  · rw [hTree, hTree, hSameLeft, hSameRight]

end Returns

theorem ReadAt.returns
    (hRead : ReadAt σ 6 e.render e)
    (hLevel : 6 ≤ e.level) :
    Returns σ e :=
  ⟨fun hBinary => absurd hBinary (Nat.not_lt_of_le hLevel),
    fun _ => hRead⟩

theorem ReadOn.returns
    {k : Nat}
    (hRead : ReadOn σ k e.render e)
    (hLevel : e.level = k) :
    Returns σ e := by
  subst hLevel
  rcases hRead with ⟨level, hSome, hRead⟩
  have hBound : e.level < 6 :=
    (List.getElem?_eq_some_iff.mp hSome).1
  exact ⟨fun _ => ⟨level, hSome, hRead⟩,
    fun hUnary => absurd hBound (Nat.not_lt_of_le hUnary)⟩

/- An operator is on its level and halts those above. -/
theorem arithmetic_level
    (op : Arithmetic) :
    ∃ level, levels[op.level]? = some level ∧
      level (.symbol op.symbol) = some (joinArithmetic op) ∧
      Halts (op.level + 1) (.symbol op.symbol) := by
  cases op <;> exact ⟨_, rfl, rfl, by decide⟩

theorem comparison_level
    (op : Comparison) :
    ∃ level, levels[op.level]? = some level ∧
      level (.symbol op.symbol) = some (joinCompare op) ∧
      Halts (op.level + 1) (.symbol op.symbol) := by
  cases op <;> exact ⟨_, rfl, rfl, by decide⟩

theorem Returns.arithmetic
    {op : Arithmetic}
    {t : Ty}
    (hLeft : Returns σ left)
    (hRight : Returns σ right)
    (hPromote : left.ty.promote right.ty = some t) :
    Returns σ (.arithmetic op left right t line) := by
  rcases arithmetic_level op with
    ⟨level, hLevel, hNode, hHalts⟩
  refine @ReadOn.returns _ _ op.level ?_ rfl
  rw [render]
  refine Returns.join (.arithmetic op · · t ·) line hLeft
    hRight hLevel hNode hHalts (fun _ _ _ => rfl) ?_
  intro left' right' n hLeftTy hRightTy
  rw [joinArithmetic, hLeftTy, hRightTy, hPromote]

theorem Returns.compare
    {op : Comparison}
    (hLeft : Returns σ left)
    (hRight : Returns σ right)
    (hComparable :
      (∃ t, left.ty.promote right.ty = some t) ∨
        (op.IsEquality ∧ left.ty = .bool ∧
          right.ty = .bool)) :
    Returns σ (.compare op left right line) := by
  rcases comparison_level op with
    ⟨level, hLevel, hNode, hHalts⟩
  refine @ReadOn.returns _ _ op.level ?_ rfl
  rw [render]
  refine Returns.join (.compare op) line hLeft hRight hLevel
    hNode hHalts (fun _ _ _ => rfl) ?_
  intro left' right' n hLeftTy hRightTy
  rw [joinCompare, hLeftTy, hRightTy]
  exact if_pos
    (hComparable.symm.imp id Option.isSome_iff_exists.mpr)

theorem Returns.and
    (hLeft : Returns σ left)
    (hRight : Returns σ right)
    (hBool : left.ty = .bool)
    (hBool' : right.ty = .bool) :
    Returns σ (.and left right line) := by
  refine @ReadOn.returns _ _ 1 ?_ rfl
  rw [render]
  refine Returns.join .and line hLeft hRight rfl rfl
    (by decide) (fun _ _ _ => rfl) ?_
  intro left' right' n hLeftTy hRightTy
  rw [joinAnd, requireCondition_of_bool n
    (hLeftTy.trans hBool),
    requireCondition_of_bool n (hRightTy.trans hBool')]
  rfl

theorem Returns.or
    (hLeft : Returns σ left)
    (hRight : Returns σ right)
    (hBool : left.ty = .bool)
    (hBool' : right.ty = .bool) :
    Returns σ (.or left right line) := by
  refine @ReadOn.returns _ _ 0 ?_ rfl
  rw [render]
  refine Returns.join .or line hLeft hRight rfl rfl
    (by decide) (fun _ _ _ => rfl) ?_
  intro left' right' n hLeftTy hRightTy
  rw [joinOr, requireCondition_of_bool n
    (hLeftTy.trans hBool),
    requireCondition_of_bool n (hRightTy.trans hBool')]
  rfl

theorem Returns.negate
    (hOperand : Returns σ operand)
    (hWritable : operand.Writable σ)
    (hNumeric : operand.ty.IsNumeric)
    (hNegation : ¬ operand.IsNegation) :
    Returns σ (.negate operand operand.ty line) := by
  refine ReadAt.returns ?_ (Nat.le_refl 6)
  rcases parenthesized_head hWritable with
    ⟨t, rest, hTokens, hNumber⟩
  have hRead := hOperand.readAt_negated
  rw [hTokens] at hRead
  rw [render, hTokens]
  exact hRead.negate line hNumber hNumeric hNegation

theorem Returns.not
    (hOperand : Returns σ operand)
    (hBool : operand.ty = .bool)
    (hInversion : ¬ operand.IsInversion) :
    Returns σ (.not operand line) := by
  refine ReadAt.returns ?_ (Nat.le_refl 6)
  rw [render]
  exact (hOperand.readAt_parenthesized (Nat.le_refl 6)).not
    line hBool hInversion

end Expr

end Bracketry
