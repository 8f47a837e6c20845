import Bracketry.Proofs.Expr.Soundness

/-
  This file shows that the code of a statement does what the
  run of the statement does, for every interpretation.

  Where a run ends normally, the code comes to its own end
  in an open block or leaves for the label behind it.  Where
  the run ends in a break, the code leaves for the exit of
  the innermost loop around.  A run that is unfinished after
  some turns is met after at least as many steps.

  Main declarations:
    * `Interpretation.Ends` and `Stmt.Between.Simulates`
    * `Stmt.lowerDoWhile_simulates`
    * `Stmt.lower_simulates`
-/

namespace Bracketry

variable {V W : Type} {b : Builder}

------------------------------------------------------------
-- Ends of Code
------------------------------------------------------------

/-
  Control goes on behind what was written: at the end of an
  open block or, where the label behind is needed, on the
  way to that label.
-/
def Builder.Continues
    (base : Nat)
    (needed : Bool)
    (b : Builder)
    (l : Label)
    (m : Machine V W) : Prop :=
  (needed = true ∧ m.control = .target l) ∨
    (b.between = false ∧ m.control = .line (b.here base))

theorem Builder.Continues.awaits
    {base : Nat}
    {needed : Bool}
    {l : Label}
    {m : Machine V W}
    (h : b.Continues base needed l m) :
    b.Awaits base l m :=
  h.imp And.right id

/-
  Where a machine is after a number of steps, for each
  ending of a run with a number of turns.
-/
def Ending.Met
    (turns steps : Nat)
    (continues : Machine V W → Prop)
    (exits : List Label)
    (m : Machine V W) :
    Ending → Prop
| .normal => continues m
| .broke =>
    ∃ exit, exits.head? = some exit ∧
      m.control = .target exit
| .returned => m.control = .returned
| .unfinished => turns ≤ steps

/- A machine meets the ending of a run. -/
def Interpretation.Ends
    (I : Interpretation V W)
    (code : List Line)
    (turns : Nat)
    (continues : Machine V W → Prop)
    (exits : List Label)
    (m : Machine V W)
    (out : Ending × W) : Prop :=
  ∃ steps m', I.run code steps m = some m' ∧
    m'.world = out.2 ∧
      out.1.Met turns steps continues exits m'

namespace Interpretation

variable {I : Interpretation V W} {code : List Line}
variable {turns : Nat}
variable {continues continues₁ : Machine V W → Prop}
variable {exits : List Label} {m m₁ : Machine V W}
variable {out : Ending × W}

/- Steps before count, too. -/
theorem Ends.after
    {steps : Nat}
    (hRun : I.run code steps m = some m₁)
    (hEnds : I.Ends code turns continues exits m₁ out) :
    I.Ends code (turns + steps) continues exits m out := by
  rcases hEnds with ⟨more, m₂, hMore, hWorld, hMet⟩
  refine ⟨steps + more, m₂, ?_, hWorld, ?_⟩
  · rw [run_add, hRun]
    exact hMore
  · rcases out with ⟨ending, w⟩
    cases ending with
    | normal => exact hMet
    | broke => exact hMet
    | returned => exact hMet
    | unfinished =>
        change turns ≤ more at hMet
        change turns + steps ≤ steps + more
        omega

/- Fewer turns are met, too, and more ways to go on. -/
theorem Ends.weaken
    {fewer : Nat}
    (hEnds : I.Ends code turns continues exits m out)
    (hLe : fewer ≤ turns)
    (hContinues : ∀ m, continues m → continues₁ m) :
    I.Ends code fewer continues₁ exits m out := by
  rcases hEnds with ⟨steps, m', hRun, hWorld, hMet⟩
  refine ⟨steps, m', hRun, hWorld, ?_⟩
  rcases out with ⟨ending, w⟩
  cases ending with
  | normal => exact hContinues m' hMet
  | broke => exact hMet
  | returned => exact hMet
  | unfinished => exact Nat.le_trans hLe hMet

theorem Ends.reaches
    (hReaches : I.Reaches code m m₁)
    (hEnds : I.Ends code turns continues exits m₁ out) :
    I.Ends code turns continues exits m out := by
  rcases hReaches with ⟨steps, hRun⟩
  exact (hEnds.after hRun).weaken (Nat.le_add_right ..)
    (fun _ h => h)

/- Going back to a label takes a step. -/
theorem Ends.enter
    {l : Label}
    {position : Nat}
    (hEntry : Line.entry code l = some position)
    (hControl : m.control = .target l)
    (hEnds :
      I.Ends code turns continues exits (m.enter l position)
        out) :
    I.Ends code (turns + 1) continues exits m out := by
  have hStep := step_target (I := I) hEntry hControl
  apply hEnds.after
  rw [run_succ, hStep]
  rfl

/- A machine that goes on behind has met a normal ending. -/
theorem Ends.normal
    {w : W}
    (hReaches : I.Reaches code m m₁)
    (hWorld : m₁.world = w)
    (hContinues : continues m₁) :
    I.Ends code turns continues exits m (.normal, w) := by
  rcases hReaches with ⟨steps, hRun⟩
  exact ⟨steps, m₁, hRun, hWorld, hContinues⟩

/- A machine that has returned has met a return. -/
theorem Ends.returned
    {w : W}
    (hReaches : I.Reaches code m m₁)
    (hWorld : m₁.world = w)
    (hControl : m₁.control = .returned) :
    I.Ends code turns continues exits m (.returned, w) := by
  rcases hReaches with ⟨steps, hRun⟩
  exact ⟨steps, m₁, hRun, hWorld, hControl⟩

/- What follows a normal ending is met behind it. -/
theorem Ends.andThen
    {first second : StateM W Ending}
    (hFirst : I.Ends code turns continues₁ exits m
      (first m.world))
    (hSecond :
      ∀ m₁, continues₁ m₁ →
        I.Ends code turns continues exits m₁
          (second m₁.world)) :
    I.Ends code turns continues exits m
      (Stmt.andThen first second m.world) := by
  rw [Stmt.andThen_apply]
  rcases hFirst with ⟨steps, m₁, hRun, hWorld, hMet⟩
  generalize first m.world = out at *
  rcases out with ⟨ending, w⟩
  cases ending with
  | normal =>
      have hEnds := hSecond m₁ hMet
      rw [hWorld] at hEnds
      exact hEnds.reaches ⟨steps, hRun⟩
  | broke => exact ⟨steps, m₁, hRun, hWorld, hMet⟩
  | returned => exact ⟨steps, m₁, hRun, hWorld, hMet⟩
  | unfinished => exact ⟨steps, m₁, hRun, hWorld, hMet⟩

/-
  A turn of a loop: behind the body it goes on with the
  loop, and a break leaves for the exit, where the loop has
  ended.
-/
theorem Ends.turn
    {body next : StateM W Ending}
    {exit : Label}
    (hBody :
      I.Ends code turns continues₁ (exit :: exits) m
        (body m.world))
    (hNext :
      ∀ m₁, continues₁ m₁ →
        I.Ends code turns continues exits m₁
          (next m₁.world))
    (hExit : ∀ m₁, m₁.control = .target exit →
      continues m₁) :
    I.Ends code turns continues exits m
      (Stmt.turn body next m.world) := by
  rw [Stmt.turn_apply]
  rcases hBody with ⟨steps, m₁, hRun, hWorld, hMet⟩
  generalize body m.world = out at *
  rcases out with ⟨ending, w⟩
  cases ending with
  | normal =>
      have hEnds := hNext m₁ hMet
      rw [hWorld] at hEnds
      exact hEnds.reaches ⟨steps, hRun⟩
  | broke =>
      rcases hMet with ⟨_, hHead, hControl⟩
      cases hHead
      exact ⟨steps, m₁, hRun, hWorld, hExit m₁ hControl⟩
  | returned => exact ⟨steps, m₁, hRun, hWorld, hMet⟩
  | unfinished => exact ⟨steps, m₁, hRun, hWorld, hMet⟩

end Interpretation

------------------------------------------------------------
-- Code Between Two Labels
------------------------------------------------------------

namespace Stmt

variable {I : Interpretation V W} {exits : List Label}
variable {l after : Label} {b b' : Builder}
variable {code : List Line} {base : Nat} {m : Machine V W}
variable {head tail : Between}
variable {headNeedsAfter tailNeedsBefore : Bool}

/-
  Executing what was written between two labels, from an
  open block, meets the ending of a run with any number of
  turns.  Where the label before is needed, it has been
  placed where the code starts.
-/
def Between.Simulates
    (I : Interpretation V W)
    (needsBefore needsAfter : Bool)
    (x : Between)
    (run : Nat → StateM W Ending) : Prop :=
  ∀ ⦃before after : Label⦄ ⦃b b' : Builder⦄,
    x before after b = .ok () b' →
    b.between = false →
    ∀ ⦃code : List Line⦄ ⦃base : Nat⦄ ⦃m : Machine V W⦄,
      b'.Within code base →
      Line.Distinct code →
      base ≤ b.lines.size →
      m.control = .line (b.here base) →
      (needsBefore = true →
        Line.entry code before = some (b.here base)) →
      ∀ turns,
        I.Ends code turns
          (b'.Continues base needsAfter after)
          b.loopExits m (run turns m.world)

theorem place_same_exits
    (l : Label)
    (hExits : b.loopExits = exits) :
    { b.place l with loopExits := exits } = b.place l := by
  rw [← hExits, ← Builder.loopExits_place b l]

/- Code behind a label is entered through it. -/
theorem Between.Simulates.ends_of_awaits
    {x : Between}
    {run : Nat → StateM W Ending}
    {needsBefore needsAfter : Bool}
    {b start b' : Builder}
    (hRuns : x.Simulates I needsBefore needsAfter run)
    (hWrites : x.Writes)
    (hStart : { b.place l with loopExits := exits } = start)
    (hOk : x l after start = .ok () b')
    (hWithin : b'.Within code base)
    (hBase : base ≤ b.lines.size)
    (hDistinct : Line.Distinct code)
    (hAwaits : b.Awaits base l m)
    (turns : Nat) :
    I.Ends code turns (b'.Continues base needsAfter after)
      exits m (run turns m.world) := by
  subst hStart
  have hBase₁ :=
    Builder.base_le_of_prefix hBase
      (Builder.prefix_place b l)
  have hWithin₁ : (b.place l).Within code base :=
    hWithin.back ((hWrites l after).ok hOk).lines hBase₁
  have hPlaced :=
    hWithin₁.reaches_place (I := I) hBase hDistinct hAwaits
  have hEnds := hRuns hOk rfl hWithin hDistinct hBase₁
    (m := m.enter l ((b.place l).here base)) rfl
    (fun _ => hWithin₁.entry_place hBase hDistinct) turns
  exact hEnds.reaches hPlaced

/- Code that ends in an open block goes on there. -/
theorem simulates_of_realizes
    {x : Build Unit}
    {β : Type}
    {run : StateM W β}
    (hRuns :
      Build.Realizes I (fun _ (_ : Unit) (_ : β) => True) x
        run)
    (needsBefore needsAfter : Bool) :
    Between.Simulates I needsBefore needsAfter
      (fun _ _ => x) (fun _ => do
        let _ ← run
        return .normal) := by
  intro before after b b' hOk hOpen
    code base m hWithin hDistinct hBase hControl _ turns
  rcases hRuns hOk hOpen with ⟨hOpen', hPasses⟩
  rcases hPasses hWithin hDistinct hBase hControl with
    ⟨m', hTo, hWorld, -⟩
  exact .normal hTo.reaches hWorld
    (.inr ⟨hOpen', hTo.control⟩)

theorem andThen_normal
    (first : StateM W Ending) :
    andThen first (return .normal) = first := by
  funext w
  rw [andThen_apply]
  rcases first w with ⟨ending, w'⟩
  cases ending <;> rfl

/- The steps that write two parts of a sequence. -/
theorem follow_eq_ok
    {before after : Label} :
    follow head headNeedsAfter
        (some (tailNeedsBefore, tail))
        before after b = .ok () b' ↔
      ∃ between b₁,
        (⟨b.nextLabel⟩ : Label) = between ∧
        head before between b.reserve.2 = .ok () b₁ ∧
        tail between after
          (if headNeedsAfter || tailNeedsBefore
            then b₁.place between else b₁) = .ok () b' := by
  constructor
  · intro hOk
    rcases Build.label_bind_eq_ok.mp hOk with
      ⟨between, hBetween, hOk⟩
    rcases Step.bind_eq_ok.mp hOk with ⟨_, b₁, hHead, hOk⟩
    refine ⟨between, b₁, hBetween, hHead, ?_⟩
    cases hNeeded : headNeedsAfter || tailNeedsBefore with
    | false =>
        rw [hNeeded] at hOk
        exact hOk
    | true =>
        rw [hNeeded] at hOk
        have hTail := Step.modify_bind_eq_ok.mp hOk
        exact hTail
  · rintro ⟨between, b₁, hBetween, hHead, hTail⟩
    apply Step.bind_eq_ok.mpr
    refine ⟨between, b.reserve.2,
      Build.label_eq_ok.mpr ⟨hBetween, rfl⟩, ?_⟩
    apply Step.bind_eq_ok.mpr
    refine ⟨(), b₁, hHead, ?_⟩
    cases hNeeded : headNeedsAfter || tailNeedsBefore with
    | false =>
        rw [hNeeded] at hTail
        exact hTail
    | true =>
        rw [hNeeded] at hTail
        exact Step.bind_eq_ok.mpr
          ⟨(), _, Step.modify_eq_ok.mpr rfl, hTail⟩

/-
  Two parts of a sequence.  The label between them is placed
  when either part needs it; then control comes to the
  second part through it, and otherwise in an open block.
-/
theorem follow_simulates
    {first second : Nat → StateM W Ending}
    {needsBefore headNeedsAfter tailNeedsBefore needsAfter :
      Bool}
    (hHead :
      head.Simulates I needsBefore headNeedsAfter first)
    (hTail :
      tail.Simulates I tailNeedsBefore needsAfter second)
    (hHeadWrites : head.Writes)
    (hTailWrites : tail.Writes) :
    Between.Simulates I needsBefore needsAfter
      (follow head headNeedsAfter
        (some (tailNeedsBefore, tail)))
      (fun turns =>
        andThen (first turns) (second turns)) := by
  intro before after b b' hOk hOpen
    code base m hWithin hDistinct hBase hControl
      hEntry turns
  rcases follow_eq_ok.mp hOk with
    ⟨between, b₁, -, hOkHead, hOkTail⟩
  have hGrown₁ := (hHeadWrites before between).ok hOkHead
  have hGrown₂ := (hTailWrites between after).ok hOkTail
  have hExits₁ : b₁.loopExits = b.loopExits := hGrown₁.exits
  have hBase₁ :=
    Builder.base_le_of_prefix (b := b.reserve.2)
    hBase hGrown₁.lines
  cases hNeeded : headNeedsAfter || tailNeedsBefore with
  | true =>
      simp only [hNeeded, if_true] at hOkTail hGrown₂
      have hBase₂ := Builder.base_le_of_prefix hBase₁
        (Builder.prefix_place b₁ between)
      have hWithin₂ := hWithin.back hGrown₂.lines hBase₂
      have hWithin₁ := hWithin₂.back
        (Builder.prefix_place b₁ between) hBase₁
      have hFirst :=
        hHead hOkHead hOpen hWithin₁ hDistinct hBase
        hControl hEntry turns
      apply hFirst.andThen
      intro m₁ hContinues
      exact hTail.ends_of_awaits hTailWrites
        (place_same_exits between hExits₁) hOkTail
          hWithin hBase₁
        hDistinct hContinues.awaits turns
  | false =>
      simp only [hNeeded, Bool.false_eq_true, if_false]
        at hOkTail hGrown₂
      rcases Bool.or_eq_false_iff.mp hNeeded with ⟨rfl, rfl⟩
      have hWithin₁ := hWithin.back hGrown₂.lines hBase₁
      have hFirst :=
        hHead hOkHead hOpen hWithin₁ hDistinct hBase
        hControl hEntry turns
      apply hFirst.andThen
      intro m₁ hContinues
      rcases hContinues with
        ⟨hFalse, -⟩ | ⟨hOpen₁, hControl₁⟩
      · cases hFalse
      · have hSecond :=
          hTail hOkTail hOpen₁ hWithin hDistinct hBase₁
          hControl₁ (fun hFalse => by cases hFalse) turns
        rwa [hExits₁] at hSecond

/- Control behind code is led to the label behind. -/
theorem reaches_jump
    {needed : Bool}
    (hWithin : (b.jump l).Within code base)
    (hBase : base ≤ b.lines.size)
    (hContinues : b.Continues base needed l m) :
    I.Reaches code m (m.goto (.target l)) := by
  rcases hContinues with ⟨-, hControl⟩ | ⟨hOpen, hControl⟩
  · have hSame : m.goto (.target l) = m := by
      rw [Machine.goto, ← hControl]
    rw [hSame]
    exact .refl I code m
  · have hJump : b.jump l = b.append (.jump l) := by
      simp [Builder.jump, hOpen]
    rw [hJump] at hWithin
    exact .single (hWithin.step_append hBase hOpen hControl)

variable {condition : Choice} {decision : StateM W Bool}
variable {body : Between}
variable {bodyNeedsBefore bodyNeedsAfter : Bool}

/-
  A choice to run a statement.  When it is not taken,
  control leaves for the label behind.
-/
theorem lowerIf_simulates
    {run : Nat → StateM W Ending}
    (hCondition : Build.Decides I condition decision)
    (hBody : body.Simulates I bodyNeedsBefore
      bodyNeedsAfter run)
    (hConditionWrites : ChoiceWrites condition)
    (hBodyWrites : body.Writes)
    (needsBefore : Bool) :
    Between.Simulates I needsBefore true
      (lowerIf condition body) (fun turns =>
        decided decision (run turns) (return .normal)) := by
  intro before after b b' hOk hOpen
    code base m hWithin hDistinct hBase hControl _ turns
  rcases Build.label_bind_eq_ok.mp hOk with ⟨onTrue, -, hOk⟩
  rcases Step.bind_eq_ok.mp hOk with
    ⟨_, b₂, hOkCondition, hOk⟩
  have hOkBody := Step.modify_bind_eq_ok.mp hOk
  have hGrown₂ := (hConditionWrites _ _).ok hOkCondition
  have hGrown₃ := (hBodyWrites _ _).ok hOkBody
  have hBase₂ :=
    Builder.base_le_of_prefix (b := b.reserve.2)
    hBase hGrown₂.lines
  have hBase₃ := Builder.base_le_of_prefix hBase₂
    (Builder.prefix_place b₂ onTrue)
  have hWithin₃ := hWithin.back hGrown₃.lines hBase₃
  have hWithin₂ := hWithin₃.back
    (Builder.prefix_place b₂ onTrue) hBase₂
  rcases hCondition (b := b.reserve.2) (.inl rfl)
      hOkCondition hOpen hWithin₂ hDistinct hBase
        hControl with
    ⟨m₁, hLeaves, hWorld⟩
  simp only [decided_apply, ← hWorld]
  cases hOutcome : (decision m.world).1 with
  | false =>
      rw [hOutcome] at hLeaves
      exact .normal hLeaves.reaches rfl
        (.inl ⟨rfl, hLeaves.arrives⟩)
  | true =>
      rw [hOutcome] at hLeaves
      have hEnds := hBody.ends_of_awaits hBodyWrites
        (place_same_exits onTrue hGrown₂.exits)
          hOkBody hWithin
        hBase₂ hDistinct (.inl hLeaves.arrives) turns
      apply (hEnds.reaches hLeaves.reaches).weaken
        (Nat.le_refl turns)
      intro m₂ hContinues
      exact hContinues.imp (fun h => ⟨rfl, h.2⟩) id

/-
  A choice between two statements.  The first one is left
  for the label behind, so that it does not run into the
  second.
-/
theorem lowerIfElse_simulates
    {body other : Between}
    {run runOther : Nat → StateM W Ending}
    {otherNeedsBefore otherNeedsAfter : Bool}
    (hCondition : Build.Decides I condition decision)
    (hBody : body.Simulates I bodyNeedsBefore
      bodyNeedsAfter run)
    (hOther :
      other.Simulates I otherNeedsBefore otherNeedsAfter
        runOther)
    (hConditionWrites : ChoiceWrites condition)
    (hBodyWrites : body.Writes)
    (hOtherWrites : other.Writes)
    (needsBefore : Bool) :
    Between.Simulates I needsBefore true
      (lowerIfElse condition body other)
      (fun turns =>
        decided decision (run turns) (runOther turns)) := by
  intro before after b b' hOk hOpen
    code base m hWithin hDistinct hBase hControl _ turns
  rcases Build.label_bind_eq_ok.mp hOk with ⟨onTrue, -, hOk⟩
  rcases Build.label_bind_eq_ok.mp hOk with
    ⟨onFalse, -, hOk⟩
  rcases Step.bind_eq_ok.mp hOk with
    ⟨_, b₃, hOkCondition, hOk⟩
  replace hOk := Step.modify_bind_eq_ok.mp hOk
  rcases Step.bind_eq_ok.mp hOk with ⟨_, b₅, hOkBody, hOk⟩
  replace hOk := Step.modify_bind_eq_ok.mp hOk
  have hOkOther := Step.modify_bind_eq_ok.mp hOk
  have hGrown₃ := (hConditionWrites _ _).ok hOkCondition
  have hGrown₅ := (hBodyWrites _ _).ok hOkBody
  have hGrown₆ := Builder.Writes.jump b₅ after
  have hGrown₇ := (hOtherWrites _ _).ok hOkOther
  have hExits₃ : b₃.loopExits = b.loopExits := hGrown₃.exits
  have hBase₃ := Builder.base_le_of_prefix
    (b := b.reserve.2.reserve.2) hBase hGrown₃.lines
  have hBase₅ := Builder.base_le_of_prefix hBase₃
    ((Builder.prefix_place b₃ onTrue).trans hGrown₅.lines)
  have hBase₆ :=
    Builder.base_le_of_prefix hBase₅ hGrown₆.lines
  have hWithin₆ := hWithin.back
    ((Builder.prefix_place _ onFalse).trans hGrown₇.lines)
      hBase₆
  have hWithin₅ := hWithin₆.back hGrown₆.lines hBase₅
  have hWithin₃ := hWithin₅.back
    ((Builder.prefix_place b₃ onTrue).trans hGrown₅.lines)
      hBase₃
  rcases hCondition (b := b.reserve.2.reserve.2) (.inl rfl)
      hOkCondition hOpen hWithin₃ hDistinct hBase
        hControl with
    ⟨m₁, hLeaves, hWorld⟩
  simp only [decided_apply, ← hWorld]
  cases hOutcome : (decision m.world).1 with
  | false =>
      rw [hOutcome] at hLeaves
      have hExits₆ : (b₅.jump after).loopExits =
          b.loopExits := by
        rw [hGrown₆.exits, hGrown₅.exits,
          Builder.loopExits_place, hExits₃]
      have hEnds := hOther.ends_of_awaits hOtherWrites
        (place_same_exits onFalse hExits₆) hOkOther
          hWithin hBase₆
        hDistinct (.inl hLeaves.arrives) turns
      apply (hEnds.reaches hLeaves.reaches).weaken
        (Nat.le_refl turns)
      intro m₂ hContinues
      exact hContinues.imp (fun h => ⟨rfl, h.2⟩) id
  | true =>
      rw [hOutcome] at hLeaves
      have hEnds := hBody.ends_of_awaits hBodyWrites
        (place_same_exits onTrue hExits₃) hOkBody
          hWithin₅ hBase₃
        hDistinct (.inl hLeaves.arrives) turns
      rw [if_pos rfl, ← andThen_normal (run turns)]
      refine Interpretation.Ends.reaches hLeaves.reaches ?_
      apply hEnds.andThen
      intro m₂ hContinues
      exact .normal
        (reaches_jump hWithin₆ hBase₅ hContinues) rfl
        (.inl ⟨rfl, rfl⟩)

/-
  A loop that tests first.  Each turn leads back to the
  label before, where the machine is as it was at the start,
  and so takes a step at least.
-/
theorem lowerWhile_simulates
    {run : Nat → StateM W Ending}
    (hCondition : Build.Decides I condition decision)
    (hBody : body.Simulates I bodyNeedsBefore
      bodyNeedsAfter run)
    (hConditionWrites : ChoiceWrites condition)
    (hBodyWrites : body.Writes) :
    Between.Simulates I true true
      (lowerWhile condition body)
      (fun turns => whileTurns decision (run turns)
        turns) := by
  intro before after b b' hOk hOpen
    code base m hWithin hDistinct hBase hControl
      hEntry turns
  rcases Build.label_bind_eq_ok.mp hOk with ⟨start, -, hOk⟩
  rcases Step.bind_eq_ok.mp hOk with
    ⟨_, b₂, hOkCondition, hOk⟩
  replace hOk := Step.modify_bind_eq_ok.mp hOk
  rcases Step.bind_eq_ok.mp hOk with ⟨_, b₄, hInside, hJump⟩
  rcases Build.insideLoop_eq_ok.mp hInside with
    ⟨b₅, hOkBody, rfl⟩
  rw [← Step.modify_eq_ok.mp hJump] at hWithin
  have hGrown₂ := (hConditionWrites _ _).ok hOkCondition
  have hGrown₅ := (hBodyWrites _ _).ok hOkBody
  have hStart :
      { b₂.place start with
        loopExits := after :: b.loopExits } =
        { b₂.place start with
          loopExits :=
            after :: (b₂.place start).loopExits } := by
    rw [Builder.loopExits_place, hGrown₂.exits]
    rfl
  have hBase₂ :=
    Builder.base_le_of_prefix (b := b.reserve.2)
    hBase hGrown₂.lines
  have hBase₅ : base ≤ b₅.lines.size :=
    Builder.base_le_of_prefix hBase₂
      ((Builder.prefix_place b₂ start).trans hGrown₅.lines)
  have hWithin₅ : b₅.Within code base :=
    hWithin.back
      (Builder.Writes.jump
        { b₅ with loopExits := b₅.loopExits.tail }
          before).lines
      hBase₅
  have hWithin₂ := hWithin₅.back
    ((Builder.prefix_place b₂ start).trans hGrown₅.lines)
      hBase₂
  -- the loop may start again with any number of turns left
  have hTurns :
      ∀ left ≤ turns, ∀ m : Machine V W,
        m.control = .line (b.here base) →
        I.Ends code left (b'.Continues base true after)
          b.loopExits m
          (whileTurns decision (run turns) left
            m.world) := by
    intro left
    induction left with
    | zero =>
        intro _ m _
        exact ⟨0, m, rfl, rfl, Nat.le_refl 0⟩
    | succ left ih =>
        intro hLe m hControl
        rcases hCondition (b := b.reserve.2) (.inl rfl)
            hOkCondition hOpen hWithin₂ hDistinct hBase
              hControl with
          ⟨m₁, hLeaves, hWorld⟩
        simp only [whileTurns, decided_apply, ← hWorld]
        cases hOutcome : (decision m.world).1 with
        | false =>
            rw [hOutcome] at hLeaves
            exact .normal hLeaves.reaches rfl
              (.inl ⟨rfl, hLeaves.arrives⟩)
        | true =>
            rw [hOutcome] at hLeaves
            have hEnds :=
              hBody.ends_of_awaits hBodyWrites hStart
              hOkBody hWithin₅ hBase₂ hDistinct
              (.inl hLeaves.arrives) turns
            refine Interpretation.Ends.reaches
              hLeaves.reaches ?_
            apply (hEnds.weaken hLe fun _ h => h).turn
            · intro m₂ hContinues
              refine Interpretation.Ends.reaches
                (reaches_jump hWithin hBase₅ hContinues) ?_
              apply Interpretation.Ends.enter
                (hEntry rfl) rfl
              exact ih (Nat.le_of_succ_le hLe) _ rfl
            · intro m₂ hControl₂
              exact .inl ⟨rfl, hControl₂⟩
  exact hTurns turns (Nat.le_refl turns) m hControl

/-
  A loop that tests last.  The body starts at the label
  before and is left for the test.
-/
theorem lowerDoWhile_simulates
    {run : Nat → StateM W Ending}
    (hBody : body.Simulates I bodyNeedsBefore
      bodyNeedsAfter run)
    (hCondition : Build.Decides I condition decision)
    (hBodyWrites : body.Writes)
    (hConditionWrites : ChoiceWrites condition) :
    Between.Simulates I true true
      (lowerDoWhile body condition)
      (fun turns => doTurns (run turns) decision
        turns) := by
  intro before after b b' hOk hOpen
    code base m hWithin hDistinct hBase hControl
      hEntry turns
  rcases Build.label_bind_eq_ok.mp hOk with ⟨test, -, hOk⟩
  rcases Step.bind_eq_ok.mp hOk with ⟨_, b₂, hInside, hOk⟩
  rcases Build.insideLoop_eq_ok.mp hInside with
    ⟨b₃, hOkBody, rfl⟩
  have hOkCondition := Step.modify_bind_eq_ok.mp hOk
  have hGrown₃ := (hBodyWrites _ _).ok hOkBody
  have hGrown₄ := (hConditionWrites _ _).ok hOkCondition
  have hBase₃ : base ≤ b₃.lines.size :=
    Builder.base_le_of_prefix (b := b) hBase hGrown₃.lines
  have hLines :=
    Builder.prefix_place
      { b₃ with loopExits := b₃.loopExits.tail } test
  have hBase₄ := Builder.base_le_of_prefix
    (b := { b₃ with loopExits := b₃.loopExits.tail })
      hBase₃ hLines
  have hWithin₄ := hWithin.back hGrown₄.lines hBase₄
  have hWithin₃ : b₃.Within code base :=
    hWithin₄.back hLines hBase₃
  -- the loop may start again with any number of turns left
  have hTurns :
      ∀ left ≤ turns, ∀ m : Machine V W,
        m.control = .line (b.here base) →
        I.Ends code left (b'.Continues base true after)
          b.loopExits m
          (doTurns (run turns) decision left m.world) := by
    intro left
    induction left with
    | zero =>
        intro _ m _
        exact ⟨0, m, rfl, rfl, Nat.le_refl 0⟩
    | succ left ih =>
        intro hLe m hControl
        have hEnds :=
          hBody hOkBody hOpen hWithin₃ hDistinct hBase
          hControl (fun _ => hEntry rfl) turns
        rw [doTurns]
        apply (hEnds.weaken hLe fun _ h => h).turn
        · intro m₁ hContinues
          have hPlaced :=
            hWithin₄.reaches_place (I := I) hBase₃
            hDistinct (m := m₁) hContinues.awaits
          rcases hCondition (.inl rfl) hOkCondition rfl
              hWithin hDistinct hBase₄
                (m := m₁.enter test _) rfl with
            ⟨m₂, hLeaves, hWorld⟩
          change m₂.world = (decision m₁.world).2 at hWorld
          refine Interpretation.Ends.reaches
            (hPlaced.trans hLeaves.reaches) ?_
          have hArrives := hLeaves.arrives
          change b'.Arrives base
            (if (decision m₁.world).1 then some before
              else some after) m₂ at hArrives
          rw [decided_apply, ← hWorld]
          cases hOutcome : (decision m₁.world).1 with
          | true =>
              rw [hOutcome] at hArrives
              apply Interpretation.Ends.enter
                (hEntry rfl) hArrives
              exact ih (Nat.le_of_succ_le hLe) _ rfl
          | false =>
              rw [hOutcome] at hArrives
              exact .normal (.refl I code m₂) rfl
                (.inl ⟨rfl, hArrives⟩)
        · intro m₁ hControl₁
          exact .inl ⟨rfl, hControl₁⟩
  exact hTurns turns (Nat.le_refl turns) m hControl

------------------------------------------------------------
-- Statements
------------------------------------------------------------

/- The value is computed before its address. -/
theorem lowerAssign_realizes
    (I : Interpretation V W)
    (target : Place)
    (value : Expr) :
    Build.Realizes I (fun _ (_ : Unit) (_ : Unit) => True)
      (lowerAssign target value)
        (assigned I target value) := by
  have hValue :=
    (Expr.lower_implements I value).convert target.ty
  have hYields :=
    (Expr.lower_yields value).convert target.ty
  have hValueWrites :=
    (Expr.lower_writes value).convert target.ty
  have hAddressWrites := Place.address_writes target
  have hPair :
      Build.Realizes I
        (fun registers (p : Value × Value) (c : V × V) =>
          (I.operand registers p.1,
            I.operand registers p.2) = c)
        (do
          let stored ← value.convert target.ty
          let address ← target.address
          return (stored, address))
        (do
          let stored ← (value.meaning I).valueAs target.ty
          let address ← target.located I
          return (stored, address)) := by
    apply hValue.andThen (Place.address_computes I target)
      hYields hValueWrites hAddressWrites
    intro registers stored address c hDenotes
    rw [hDenotes]
  have hStore := hPair.perform
    (hValueWrites.bind_nil fun _ =>
      hAddressWrites.bind_nil fun _ => .pure _)
    (fun p => .store p.1 p.2)
    (fun c => I.store c.1 c.2)
    (fun _ => rfl)
    (by
      intro p c m position hDenotes
      rw [← hDenotes]
      rfl)
  unfold lowerAssign assigned
  simpa only [bind_assoc, pure_bind] using hStore

/- A call of which only the effect counts. -/
theorem evaluate_realizes
    (I : Interpretation V W)
    (call : Expr) :
    Build.Realizes I (fun _ (_ : Unit) (_ : Unit) => True)
      (do let _ ← call.reduce)
      (do let _ ← (call.meaning I).value) := by
  apply (Expr.lower_implements I call).reduce.map
    (fun _ => ()) (fun _ => ())
  intro registers v value _
  trivial

/- A return ends the run once its value is computed. -/
theorem lowerReturn_simulates
    (I : Interpretation V W)
    (t : Ty)
    (value : Option Expr)
    (needsBefore needsAfter : Bool) :
    Between.Simulates I needsBefore needsAfter
      (fun _ _ => lowerReturn t value)
      (fun _ => do
        handedBack I t value
        return .returned) := by
  intro before after b b' hOk hOpen
    code base m hWithin hDistinct hBase hControl _ turns
  cases value with
  | none =>
      rcases Step.modify_eq_ok.mp hOk with rfl
      have hStep :=
        hWithin.step_append (I := I) hBase hOpen hControl
      exact .returned (.single hStep) rfl rfl
  | some e =>
      rcases Step.bind_eq_ok.mp hOk with
        ⟨returned, b₁, hOkValue, hOk⟩
      rcases Step.modify_eq_ok.mp hOk with rfl
      have hGrown :=
        ((Expr.lower_writes e).convert t).ok hOkValue
      have hBase₁ :=
        Builder.base_le_of_prefix hBase hGrown.lines
      have hWithin₁ := hWithin.back
        (Builder.Writes.append b₁ _).lines hBase₁
      rcases (Expr.lower_implements I e).convert t hOkValue
        hOpen with
        ⟨hOpen₁, hPasses⟩
      rcases hPasses hWithin₁ hDistinct hBase hControl with
        ⟨m₁, hTo, hWorld, hDenotes⟩
      have hStep :=
        hWithin.step_append (I := I) hBase₁ hOpen₁
        hTo.control
      refine .returned (hTo.reaches.trans (.single hStep))
        ?_ rfl
      change (I.ret (some (I.operand m₁.registers returned))
        m₁.world).2 = _
      rw [hDenotes, hWorld]

/- A break leaves for the exit of the innermost loop. -/
theorem lowerBreak_simulates
    (I : Interpretation V W)
    (line : Nat)
    (needsBefore needsAfter : Bool) :
    Between.Simulates I needsBefore needsAfter
      (fun _ _ => lowerBreak line)
      (fun _ => return .broke) := by
  intro before after b b' hOk hOpen
    code base m hWithin hDistinct hBase hControl _ turns
  rcases Step.bind_eq_ok.mp hOk with ⟨b₀, _, hGet, hOk⟩
  cases hGet
  cases hExits : b.loopExits with
  | nil =>
      rw [hExits] at hOk
      cases hOk
  | cons exit rest =>
      rw [hExits] at hOk
      rcases Step.modify_eq_ok.mp hOk with rfl
      have hContinues : b.Continues base true exit m :=
        .inr ⟨hOpen, hControl⟩
      rcases reaches_jump (I := I) hWithin hBase
        hContinues with
        ⟨steps, hRun⟩
      exact ⟨steps, _, hRun, rfl, exit, rfl, rfl⟩

mutual

/- The code of a statement does what its run does. -/
theorem lower_simulates
    (I : Interpretation V W) :
    ∀ st : Stmt,
      Between.Simulates I st.needsBefore st.needsAfter
        st.lower (fun turns => run I turns st)
| .empty line => by
    simp only [lower, run]
    have hNothing :
        Build.Realizes I
          (fun _ (_ : Unit) (_ : Unit) => True)
          (pure ()) (pure ()) :=
      .pure fun _ => trivial
    exact simulates_of_realizes hNothing _ _
| .sequence head tail => by
    simp only [lower, run, needsBefore, needsAfter]
    exact lowerTail_simulates I tail
      (lower_simulates I head) (lower_writes head)
| .ifThen condition body line => by
    simp only [lower, run, needsAfter]
    exact lowerIf_simulates
      (Expr.lower_implements I condition).branches
      (lower_simulates I body)
        (Expr.lower_writes condition).branches
      (lower_writes body) _
| .ifElse condition body other line => by
    simp only [lower, run, needsAfter]
    exact lowerIfElse_simulates
      (Expr.lower_implements I condition).branches
      (lower_simulates I body) (lower_simulates I other)
      (Expr.lower_writes condition).branches
      (lower_writes body) (lower_writes other) _
| .whileLoop condition body line => by
    simp only [lower, run, needsBefore, needsAfter]
    exact lowerWhile_simulates
      (Expr.lower_implements I condition).branches
      (lower_simulates I body)
        (Expr.lower_writes condition).branches
      (lower_writes body)
| .doWhile body condition line => by
    simp only [lower, run, needsBefore, needsAfter]
    exact lowerDoWhile_simulates (lower_simulates I body)
      (Expr.lower_implements I condition).branches
      (lower_writes body)
        (Expr.lower_writes condition).branches
| .assign target value line => by
    simp only [lower, run]
    exact simulates_of_realizes
      (lowerAssign_realizes I target value) _ _
| .ret value t line => by
    simp only [lower, run]
    exact lowerReturn_simulates I t value _ _
| .breakLoop line => by
    simp only [lower, run]
    exact lowerBreak_simulates I line _ _
| .evaluate call line => by
    simp only [lower, run]
    exact simulates_of_realizes (evaluate_realizes I call) _
      _

/- The code of a sequence runs its statements in order. -/
theorem lowerTail_simulates
    (I : Interpretation V W) :
    ∀ (sts : List Stmt)
      {head : Between}
      {first : Nat → StateM W Ending}
      {needsBefore headNeedsAfter : Bool},
      head.Simulates I needsBefore headNeedsAfter first →
      head.Writes →
      Between.Simulates I needsBefore
        (lastNeedsAfter headNeedsAfter sts)
        (follow head headNeedsAfter (lowerTail sts))
        (fun turns =>
          andThen (first turns) (runAll I turns sts))
| [], head, first, needsBefore, headNeedsAfter,
    hHead, _ => by
    simp only [lowerTail, runAll, lastNeedsAfter,
      andThen_normal]
    exact hHead
| st :: rest, head, first, needsBefore, headNeedsAfter,
    hHead, hHeadWrites => by
    have hRestWrites := lower_writes (.sequence st rest)
    rw [lower] at hRestWrites
    simp only [lowerTail, runAll, lastNeedsAfter]
    exact follow_simulates hHead
      (lowerTail_simulates I rest (lower_simulates I st)
        (lower_writes st))
      hHeadWrites hRestWrites

end

end Stmt

end Bracketry
