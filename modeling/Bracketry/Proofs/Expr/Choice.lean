import Bracketry.Proofs.Expr.Simulation

/-
  This file shows that the code of a choice leaves for the
  label of the outcome meant, or comes to its own end where
  that label is missing.

  Main declarations:
    * `Interpretation.Leaves` and `Build.Decides`
    * `Lowering.either_decides`
    * `Lowering.merge_computes`
-/

namespace Bracketry

variable {V W : Type}

/-
  Control has left for a label, or has come to the end of an
  open block where the label is missing.
-/
def Builder.Arrives
    (base : Nat)
    (b : Builder)
    (target : Option Label)
    (m : Machine V W) : Prop :=
  match target with
  | some l => m.control = .target l
  | none =>
      b.between = false ∧ m.control = .line (b.here base)

/-
  A machine leaves what was written for a target, keeping
  all temporaries below a bound.
-/
structure Interpretation.Leaves
    (I : Interpretation V W)
    (code : List Line)
    (base bound : Nat)
    (b : Builder)
    (target : Option Label)
    (m m' : Machine V W) : Prop where
  reaches : I.Reaches code m m'
  arrives : b.Arrives base target m'
  kept : ∀ n < bound, m'.registers n = m.registers n

namespace Interpretation

variable {I : Interpretation V W} {code : List Line}
variable {base bound bound₁ : Nat} {b b₁ b₂ : Builder}
variable {target : Option Label} {m m₁ m₂ : Machine V W}
variable {world : W}

/- A machine that passed some code may leave the rest. -/
theorem Passes.leaves
    (hFirst : I.Passes code base bound b₁ m m₁)
    (hSecond : I.Leaves code base bound₁ b₂ target m₁ m₂)
    (hLe : bound ≤ bound₁) :
    I.Leaves code base bound b₂ target m m₂ where
  reaches := hFirst.reaches.trans hSecond.reaches
  arrives := hSecond.arrives
  kept := by
    intro n hLt
    rw [hSecond.kept n (Nat.lt_of_lt_of_le hLt hLe),
      hFirst.kept n hLt]

/- What comes to its end without a label can be passed. -/
theorem Leaves.passes
    (h : I.Leaves code base bound b none m m₁) :
    I.Passes code base bound b m m₁ :=
  ⟨h.reaches, h.arrives.2, h.kept⟩

/- Control that left for a label goes on leaving for it. -/
theorem Leaves.of_some
    {l : Label}
    (h : I.Leaves code base bound b₁ (some l) m m₁) :
    I.Leaves code base bound b₂ (some l) m m₁ :=
  ⟨h.reaches, h.arrives, h.kept⟩

/- Control gets behind a label that is placed next. -/
theorem Leaves.place
    {l : Label}
    (h : I.Leaves code base bound b target m m₁)
    (hTarget : target = some l ∨ target = none)
    (hWithin : (b.place l).Within code base)
    (hBase : base ≤ b.lines.size)
    (hDistinct : Line.Distinct code) :
    I.Leaves code base bound (b.place l) none m
      (m₁.enter l ((b.place l).here base)) where
  reaches := by
    have hAwaits : b.Awaits base l m₁ := by
      rcases hTarget with rfl | rfl
      · exact .inl h.arrives
      · exact .inr h.arrives
    exact h.reaches.trans
      (hWithin.reaches_place hBase hDistinct hAwaits)
  arrives := ⟨rfl, rfl⟩
  kept := h.kept

/- A branch in an open block leaves for a label. -/
theorem leaves_append_branch
    (bound : Nat)
    {condition : Value}
    {onTrue onFalse : Label}
    {outcome : Bool}
    (hWithin :
      (b.append (.branch condition onTrue onFalse)).Within
        code base)
    (hBase : base ≤ b.lines.size)
    (hOpen : b.between = false)
    (hControl : m.control = .line (b.here base))
    (hTest :
      I.test (I.operand m.registers condition) m.world =
        (outcome, world)) :
    ∃ m', I.Leaves code base bound
        (b.append (.branch condition onTrue onFalse))
        (some (if outcome then onTrue else onFalse)) m m' ∧
      m'.world = world := by
  have hStep :=
    hWithin.step_append (I := I) hBase hOpen hControl
  simp only [exec, hTest] at hStep
  exact ⟨_, ⟨.single hStep, rfl, fun _ _ => rfl⟩, rfl⟩

/- A condition is tested, and control leaves. -/
theorem leaves_branch
    (bound : Nat)
    {condition : Value}
    {onTrue onFalse : Option Label}
    {outcome : Bool}
    (hTarget : onTrue.isSome ∨ onFalse.isSome)
    (hWithin :
      (b.branch condition onTrue onFalse).Within code base)
    (hBase : base ≤ b.lines.size)
    (hDistinct : Line.Distinct code)
    (hOpen : b.between = false)
    (hControl : m.control = .line (b.here base))
    (hTest :
      I.test (I.operand m.registers condition) m.world =
        (outcome, world)) :
    ∃ m', I.Leaves code base bound
        (b.branch condition onTrue onFalse)
        (if outcome then onTrue else onFalse) m m' ∧
      m'.world = world := by
  -- where a target is missing, a fresh label stands for it
  have hFresh :
      ∀ i, base ≤ (b.reserve.2.append i).lines.size :=
        fun i =>
    Builder.base_le_of_prefix (b := b.reserve.2) hBase
      (Builder.Writes.append b.reserve.2 i).lines
  cases onTrue with
  | some t =>
      cases onFalse with
      | some f =>
          rcases leaves_append_branch bound hWithin hBase
              hOpen hControl hTest with
            ⟨m', hLeaves, hWorld⟩
          cases outcome <;> exact ⟨m', hLeaves, hWorld⟩
      | none =>
          have hAppend := hWithin.back
            (Builder.prefix_place _ b.reserve.1) (hFresh _)
          rcases leaves_append_branch bound
              (b := b.reserve.2) hAppend hBase hOpen
                hControl hTest with
            ⟨m₁, hLeaves, hWorld⟩
          cases outcome with
          | true => exact ⟨m₁, hLeaves.of_some, hWorld⟩
          | false =>
              exact ⟨_,
                hLeaves.place (.inl rfl) hWithin (hFresh _)
                hDistinct, hWorld⟩
  | none =>
      cases onFalse with
      | some f =>
          have hAppend := hWithin.back
            (Builder.prefix_place _ b.reserve.1) (hFresh _)
          rcases leaves_append_branch bound
              (b := b.reserve.2) hAppend hBase hOpen
                hControl hTest with
            ⟨m₁, hLeaves, hWorld⟩
          cases outcome with
          | true =>
              exact ⟨_,
                hLeaves.place (.inl rfl) hWithin (hFresh _)
                hDistinct, hWorld⟩
          | false => exact ⟨m₁, hLeaves.of_some, hWorld⟩
      | none => simp at hTarget

end Interpretation

namespace Build

/-
  Executing what a choice wrote, from an open block,
  performs a decision and leaves for the label of its
  outcome.
-/
def Decides
    (I : Interpretation V W)
    (choice : Choice)
    (run : StateM W Bool) : Prop :=
  ∀ ⦃onTrue onFalse : Option Label⦄ ⦃b b' : Builder⦄,
    onTrue.isSome ∨ onFalse.isSome →
    choice onTrue onFalse b = .ok () b' →
    b.between = false →
    ∀ ⦃code : List Line⦄ ⦃base : Nat⦄ ⦃m : Machine V W⦄,
      b'.Within code base →
      Line.Distinct code →
      base ≤ b.lines.size →
      m.control = .line (b.here base) →
      ∃ m', I.Leaves code base b.nextTemporary b'
          (if (run m.world).1 then onTrue else onFalse) m
            m' ∧
        m'.world = (run m.world).2

variable {I : Interpretation V W}

/- An operand that is tested decides as the test does. -/
theorem Computes.decides
    {x : Build Value}
    {run : StateM W V}
    (hValue : Computes I x run)
    (hWrites : Writes [] x) :
    Decides I
      (fun onTrue onFalse => do
        let condition ← x
        Build.branch condition onTrue onFalse)
      (I.tested run) := by
  intro onTrue onFalse b b' hTarget hOk hOpen
    code base m hWithin hDistinct hBase hControl
  rcases Step.bind_eq_ok.mp hOk with
    ⟨condition, b₁, hFirst, hOk⟩
  cases hOk
  rcases hValue hFirst hOpen with ⟨hOpen₁, hRuns⟩
  have hGrown := hWrites.ok hFirst
  have hBase₁ :=
    Builder.base_le_of_prefix hBase hGrown.lines
  have hWithin₁ := hWithin.back
    (Builder.Writes.branch b₁ condition onTrue
      onFalse).lines hBase₁
  rcases hRuns hWithin₁ hDistinct hBase hControl with
    ⟨m₁, hPasses, hWorld, hDenotes⟩
  have hTest :
      I.test (I.operand m₁.registers condition) m₁.world =
        I.tested run m.world := by
    rw [hDenotes, hWorld]
    rfl
  rcases Interpretation.leaves_branch b₁.nextTemporary
      hTarget hWithin hBase₁ hDistinct hOpen₁
        hPasses.control hTest with
    ⟨m₂, hLeaves, hWorld₂⟩
  exact ⟨m₂, hPasses.leaves hLeaves hGrown.temporaries,
    hWorld₂⟩

/- Exchanged labels decide the opposite. -/
theorem Decides.opposite
    {choice : Choice}
    {run : StateM W Bool}
    (hChoice : Decides I choice run) :
    Decides I (fun onTrue onFalse => choice onFalse onTrue)
      (Meaning.opposite run) := by
  intro onTrue onFalse b b' hTarget hOk hOpen
    code base m hWithin hDistinct hBase hControl
  rcases hChoice hTarget.symm hOk hOpen hWithin hDistinct
    hBase hControl with
    ⟨m', hLeaves, hWorld⟩
  refine ⟨m', ?_, hWorld⟩
  change I.Leaves code base b.nextTemporary b'
    (if !(run m.world).1 then onTrue else onFalse) m m'
  cases hOutcome : (run m.world).1 <;>
    simpa [hOutcome] using hLeaves

end Build

namespace Lowering

variable {I : Interpretation V W}

open Build

variable {left right : Choice}
variable {first second : StateM W Bool} {code : List Line}
variable {base : Nat} {b : Builder} {onTrue onFalse : Label}

/- A literal leaves for its label, or writes nothing. -/
theorem settled_decides
    (value : Bool) :
    Decides I (settled value) (pure value) := by
  intro onTrue onFalse b b' hTarget hOk hOpen
    code base m hWithin hDistinct hBase hControl
  change ∃ m', I.Leaves code base b.nextTemporary b'
    (if value then onTrue else onFalse) m m' ∧
      m'.world = m.world
  unfold settled at hOk
  cases hLabel : (if value then onTrue else onFalse) with
  | none =>
      rw [hLabel] at hOk
      rcases Step.pure_eq_ok.mp hOk with ⟨-, rfl⟩
      exact ⟨m, ⟨.refl I code m, ⟨hOpen, hControl⟩,
        fun _ _ => rfl⟩, rfl⟩
  | some l =>
      rw [hLabel] at hOk
      have hJump : b.jump l = b.append (.jump l) := by
        simp [Builder.jump, hOpen]
      change EStateM.Result.ok () (b.jump l) =
        .ok () b' at hOk
      rw [hJump] at hOk
      cases hOk
      have hStep :=
        hWithin.step_append (I := I) hBase hOpen hControl
      exact ⟨m.goto (.target l),
        ⟨.single hStep, rfl, fun _ _ => rfl⟩, rfl⟩

/-
  The second side is reached only when the first is true;
  when it is false, control leaves for the exit, which is
  the label given or one that is placed behind both.
-/
theorem both_decides
    (hLeft : Decides I left first)
    (hRight : Decides I right second)
    (hWritesLeft :
      ∀ onTrue onFalse,
        Build.Writes [] (left onTrue onFalse))
    (hWritesRight :
      ∀ onTrue onFalse,
        Build.Writes [] (right onTrue onFalse)) :
    Decides I (both left right)
      (Meaning.both first second) := by
  intro onTrue onFalse b b' hTarget hOk hOpen
    code base m hWithin hDistinct hBase hControl
  have hBoth :
      Meaning.both first second m.world =
        if (first m.world).1 then second (first m.world).2
        else (false, (first m.world).2) := by
    change (if (first m.world).1 = true then second else
      pure false) (first m.world).2 = _
    cases (first m.world).1 <;> rfl
  rw [hBoth]
  cases onFalse with
  | some exit =>
      rcases Step.bind_eq_ok.mp hOk with
        ⟨_, b₁, hOkLeft, hOkRight⟩
      have hGrown :=
        (hWritesLeft none (some exit)).ok hOkLeft
      have hGrown₁ :=
        (hWritesRight onTrue (some exit)).ok hOkRight
      have hBase₁ :=
        Builder.base_le_of_prefix hBase hGrown.lines
      rcases hLeft (.inr rfl) hOkLeft hOpen
          (hWithin.back hGrown₁.lines hBase₁) hDistinct
            hBase hControl with
        ⟨m₁, hLeaves, hWorld⟩
      cases hOutcome : (first m.world).1 with
      | false =>
          rw [hOutcome] at hLeaves
          exact ⟨m₁, hLeaves.of_some, hWorld⟩
      | true =>
          rw [hOutcome] at hLeaves
          rcases hRight (.inr rfl) hOkRight
              hLeaves.arrives.1 hWithin hDistinct hBase₁
                hLeaves.arrives.2 with
            ⟨m₂, hLeaves₂, hWorld₂⟩
          rw [hWorld] at hLeaves₂ hWorld₂
          exact ⟨m₂, hLeaves.passes.leaves hLeaves₂
            hGrown.temporaries, hWorld₂⟩
  | none =>
      rcases label_bind_eq_ok.mp hOk with ⟨_, rfl, hOk⟩
      rcases Step.bind_eq_ok.mp hOk with
        ⟨_, b₁, hOkLeft, hOk⟩
      rcases Step.bind_eq_ok.mp hOk with
        ⟨_, b₂, hOkRight, hOk⟩
      cases hOk
      have hGrown :=
        (hWritesLeft none (some b.reserve.1)).ok hOkLeft
      have hGrown₁ := (hWritesRight onTrue none).ok hOkRight
      have hBase₁ := Builder.base_le_of_prefix
        (b := b.reserve.2) hBase hGrown.lines
      have hBase₂ :=
        Builder.base_le_of_prefix hBase₁ hGrown₁.lines
      have hWithin₂ :=
        hWithin.back (Builder.prefix_place b₂ b.reserve.1)
          hBase₂
      rcases hLeft (b := b.reserve.2) (.inr rfl) hOkLeft
          hOpen (hWithin₂.back hGrown₁.lines hBase₁)
            hDistinct hBase hControl with
        ⟨m₁, hLeaves, hWorld⟩
      cases hOutcome : (first m.world).1 with
      | false =>
          rw [hOutcome] at hLeaves
          exact ⟨_, hLeaves.of_some.place (.inl rfl) hWithin
            hBase₂ hDistinct, hWorld⟩
      | true =>
          rw [hOutcome] at hLeaves
          rcases hRight hTarget hOkRight hLeaves.arrives.1
              hWithin₂ hDistinct hBase₁
                hLeaves.arrives.2 with
            ⟨m₂, hLeaves₂, hWorld₂⟩
          rw [hWorld] at hLeaves₂ hWorld₂
          have hAll : I.Leaves code base b.nextTemporary b₂
            _ m m₂ :=
            hLeaves.passes.leaves hLeaves₂
              hGrown.temporaries
          cases hSecond : (second (first m.world).2).1 with
          | true =>
              rcases by
                simpa [Option.isSome_iff_exists]
                  using hTarget with
                ⟨l, rfl⟩ : ∃ l, onTrue = some l
              rw [hSecond] at hAll
              refine ⟨m₂, ?_, hWorld₂⟩
              rw [if_pos rfl, hSecond]
              exact hAll.of_some
          | false =>
              rw [hSecond] at hAll
              refine ⟨m₂.enter b.reserve.1
                ((b₂.place b.reserve.1).here base),
                  ?_, hWorld₂⟩
              rw [if_pos rfl, hSecond]
              exact hAll.place (.inr rfl) hWithin hBase₂
                hDistinct

/- The dual of a conjunction. -/
theorem either_decides
    (hLeft : Decides I left first)
    (hRight : Decides I right second)
    (hWritesLeft :
      ∀ onTrue onFalse,
        Build.Writes [] (left onTrue onFalse))
    (hWritesRight :
      ∀ onTrue onFalse,
        Build.Writes [] (right onTrue onFalse)) :
    Decides I (either left right)
      (Meaning.either first second) := by
  rw [Meaning.either_eq_opposite]
  have hBoth := both_decides hLeft.opposite hRight.opposite
    (fun t f => hWritesLeft f t)
      (fun t f => hWritesRight f t)
  have hSwapped := hBoth.opposite
  intro onTrue onFalse b b' hTarget hOk
  rw [either_eq_both] at hOk
  exact hSwapped hTarget hOk

variable {m : Machine V W}

/- A block that does nothing but go on to another label. -/
theorem reaches_bridge
    {l next : Label}
    (hWithin : ((b.place l).jump next).Within code base)
    (hBase : base ≤ b.lines.size)
    (hDistinct : Line.Distinct code)
    (hTarget : m.control = .target l) :
    I.Reaches code m
      ((m.enter l ((b.place l).here base)).goto
        (.target next)) := by
  have hBase₁ :=
    Builder.base_le_of_prefix hBase
      (Builder.prefix_place b l)
  have hPlace :=
    hWithin.back (Builder.Writes.jump _ next).lines hBase₁
  have hEnter :=
    hPlace.reaches_place (I := I) hBase hDistinct
      (.inl hTarget)
  have hAppend :
      ((b.place l).append (.jump next)).Within code base :=
        hWithin
  have hStep := hAppend.step_append (I := I)
    (m := m.enter l ((b.place l).here base)) hBase₁ rfl rfl
  exact hEnter.trans (.single hStep)

theorem prefix_bridge
    (b : Builder)
    (l next : Label) :
    b.lines.toList <+:
      ((b.place l).jump next).lines.toList :=
  (Builder.prefix_place b l).trans
    (Builder.Writes.jump _ next).lines

theorem nextTemporary_bridge
    (b : Builder)
    (l next : Label) :
    ((b.place l).jump next).nextTemporary =
      b.nextTemporary :=
  Builder.nextTemporary_place b l

/- A merge tells the outcome by the block before. -/
theorem exec_merge
    {outcome : Bool}
    (dest position : Nat)
    (hNe : onFalse ≠ onTrue)
    (hPrevious :
      m.previous =
        some (if outcome then onTrue else onFalse)) :
    I.exec m position (.merge dest onTrue onFalse) =
      some (m.receive dest (I.bool outcome .bool, m.world)
        (position + 1)) := by
  cases outcome with
  | true =>
      simp [Interpretation.exec, hPrevious]
      rfl
  | false =>
      simp [Interpretation.exec, hPrevious, hNe]
      rfl

/-
  The block that control comes from tells the outcome: each
  of the two labels has a block of its own that does nothing
  but go on to the merge.
-/
theorem reaches_joined
    {b b₁ b₂ : Builder}
    {onTrue onFalse done : Label}
    {outcome : Bool}
    (hTrueBlock : (b.place onTrue).jump done = b₁)
    (hFalseBlock : (b₁.place onFalse).jump done = b₂)
    (hWithin : (b₂.place done).Within code base)
    (hBase : base ≤ b.lines.size)
    (hDistinct : Line.Distinct code)
    (hControl :
      m.control =
        .target (if outcome then onTrue else onFalse)) :
    ∃ m', I.Reaches code m m' ∧
      m'.control = .line ((b₂.place done).here base) ∧
      m'.previous =
        some (if outcome then onTrue else onFalse) ∧
      m'.registers = m.registers ∧
      m'.world = m.world := by
  have hLines₁ := prefix_bridge b onTrue done
  rw [hTrueBlock] at hLines₁
  have hLines₂ := prefix_bridge b₁ onFalse done
  rw [hFalseBlock] at hLines₂
  have hBase₁ := Builder.base_le_of_prefix hBase hLines₁
  have hBase₂ := Builder.base_le_of_prefix hBase₁ hLines₂
  have hWithin₂ :=
    hWithin.back (Builder.prefix_place b₂ done) hBase₂
  have hWithin₁ := hWithin₂.back hLines₂ hBase₁
  -- behind either block the machine is on the way to the
  -- merge
  have hBridge :
      ∃ position, I.Reaches code m
        ((m.enter (if outcome then onTrue else onFalse)
          position).goto (.target done)) := by
    cases outcome with
    | true =>
        rw [← hTrueBlock] at hWithin₁
        exact ⟨_, reaches_bridge hWithin₁ hBase hDistinct
          hControl⟩
    | false =>
        rw [← hFalseBlock] at hWithin₂
        exact ⟨_, reaches_bridge hWithin₂ hBase₁ hDistinct
          hControl⟩
  rcases hBridge with ⟨position, hReaches⟩
  have hLast := hWithin.step_place (I := I) hBase₂ hDistinct
    (m := (m.enter (if outcome then onTrue else onFalse)
      position).goto (.target done)) rfl
  exact ⟨_, hReaches.trans (.single hLast), rfl, rfl,
    rfl, rfl⟩

/- A choice as an operand. -/
theorem merge_computes
    {branches : Choice}
    {run : StateM W Bool}
    (hBranches : Decides I branches run)
    (hWrites :
      ∀ onTrue onFalse,
        Build.Writes [] (branches onTrue onFalse)) :
    Computes I (merge branches)
      (do return I.bool (← run) .bool) := by
  intro b v b' hOk hOpen
  rcases label_bind_eq_ok.mp hOk with ⟨_, rfl, hOk⟩
  rcases label_bind_eq_ok.mp hOk with ⟨_, rfl, hOk⟩
  rcases label_bind_eq_ok.mp hOk with ⟨done, -, hOk⟩
  rcases Step.bind_eq_ok.mp hOk with
    ⟨_, b₄, hOkBranches, hOk⟩
  replace hOk := Step.modify_bind_eq_ok.mp hOk
  replace hOk := Step.modify_bind_eq_ok.mp hOk
  replace hOk := Step.modify_bind_eq_ok.mp hOk
  replace hOk := Step.modify_bind_eq_ok.mp hOk
  replace hOk := Step.modify_bind_eq_ok.mp hOk
  rw [define_eq] at hOk
  cases hOk
  have hGrown := (hWrites _ _).ok hOkBranches
  have hNe :
      (⟨b.reserve.2.nextLabel⟩ : Label) ≠
        ⟨b.nextLabel⟩ := by
    simp [Builder.reserve]
  generalize (⟨b.reserve.2.nextLabel⟩ : Label) =
    onFalse at *
  generalize (⟨b.nextLabel⟩ : Label) = onTrue at *
  refine ⟨rfl, ?_⟩
  intro code base m hWithin hDistinct hBase hControl
  generalize hTrueBlock :
    (b₄.place onTrue).jump done = b₅ at *
  generalize hFalseBlock :
    (b₅.place onFalse).jump done = b₆ at *
  have hNumbers : (b₆.place done).nextTemporary =
      b₄.nextTemporary := by
    rw [← hFalseBlock, ← hTrueBlock]
    simp [nextTemporary_bridge]
  have hBase₄ : base ≤ b₄.lines.size :=
    Builder.base_le_of_prefix (b := b) hBase hGrown.lines
  have hLines₆ : b₄.lines.toList <+: b₆.lines.toList := by
    rw [← hFalseBlock, ← hTrueBlock]
    exact (prefix_bridge ..).trans (prefix_bridge ..)
  have hBase₇ := Builder.base_le_of_prefix hBase₄
    (hLines₆.trans (Builder.prefix_place b₆ done))
  have hWithin₇ : (b₆.place done).Within code base :=
    hWithin.back (Builder.Writes.append _ _).lines hBase₇
  have hWithin₄ := hWithin₇.back
    (hLines₆.trans (Builder.prefix_place b₆ done)) hBase₄
  rcases hBranches (.inl rfl) hOkBranches hOpen hWithin₄
      hDistinct hBase hControl with
    ⟨m₁, hLeaves, hWorld⟩
  have hTarget : m₁.control =
      .target
        (if (run m.world).1 then onTrue else onFalse) := by
    have hArrives := hLeaves.arrives
    cases hOutcome : (run m.world).1 <;>
      simpa [hOutcome, Builder.Arrives] using hArrives
  rcases reaches_joined (I := I) hTrueBlock hFalseBlock
      hWithin₇ hBase₄ hDistinct hTarget with
    ⟨m₂, hReaches, hLine, hPrevious, hRegisters, hWorld₂⟩
  have hExec :=
    exec_merge (I := I) (b₆.place done).nextTemporary
    ((b₆.place done).here base) hNe hPrevious
  have hMerge := Interpretation.passes_define hWithin hBase₇
    rfl hLine hExec
  refine ⟨_, ⟨?_, hMerge.control, ?_⟩, hWorld₂.trans hWorld,
    ?_⟩
  · exact hLeaves.reaches.trans
      (hReaches.trans hMerge.reaches)
  · intro n hLt
    have hLe := hGrown.temporaries
    have hLt₄ : n < b₄.nextTemporary :=
      Nat.lt_of_lt_of_le hLt hLe
    rw [hMerge.kept n (hNumbers ▸ hLt₄), hRegisters]
    exact hLeaves.kept n hLt
  · change I.operand _ (.temporary _ .bool) =
      I.bool (run m.world).1 .bool
    rw [Interpretation.operand, Machine.registers_receive]

end Lowering

end Bracketry
