import Bracketry.Proofs.Stmt.Simulation

/-
  This file shows that the code of a statement preserves its
  control flow.

  The text of a statement is executed on its own, with the
  two labels around it placed where it needs them.  It comes
  to its end exactly when the run of the statement ends
  normally, and then both have done the same in the same
  order.  Without an end both have the same record at every
  point.

  Main declarations:
    * `Builder.placeIf`
    * `Stmt.placed_ends`
    * `Stmt.lower_preserves_control_flow`
-/

namespace Bracketry

namespace Interpretation

variable {V W : Type} {I : Interpretation V W}
variable {code : List Line} {finished : Machine V W → Prop}
variable {exits : List Label} {m m' : Machine V W}
variable {turns steps : Nat} {out : Ending × W}

/- A run that has an end is met where the machine stops. -/
theorem Ends.halted
    (hEnds : I.Ends code turns finished exits m out)
    (hFinished : ∀ m', finished m' → I.Halted code m')
    (hBroke : out.1 ≠ .broke)
    (hEnded : out.1 ≠ .unfinished) :
    ∃ m', I.Reaches code m m' ∧ I.Halted code m' ∧
      m'.world = out.2 ∧
        out.1.Met turns 0 finished exits m' := by
  rcases hEnds with ⟨steps, m', hRun, hWorld, hMet⟩
  rcases out with ⟨ending, w⟩
  cases ending with
  | normal =>
      exact ⟨m', ⟨steps, hRun⟩, hFinished m' hMet,
        hWorld, hMet⟩
  | broke => exact absurd rfl hBroke
  | returned =>
      exact ⟨m', ⟨steps, hRun⟩, halted_of_returned hMet,
        hWorld, hMet⟩
  | unfinished => exact absurd rfl hEnded

/- A machine that stops has met the end of a longer run. -/
theorem Ends.of_halted
    (hEnds : I.Ends code (steps + 1) finished exits m out)
    (hFinished : ∀ m', finished m' → I.Halted code m')
    (hBroke : out.1 ≠ .broke)
    (hRun : I.run code steps m = some m')
    (hHalted : I.Halted code m') :
    out.1 ≠ .unfinished ∧ m'.world = out.2 ∧
      out.1.Met (steps + 1) 0 finished exits m' := by
  have hEnded : out.1 ≠ .unfinished := by
    intro hUnfinished
    rcases hEnds with ⟨more, m₁, hMore, -, hMet⟩
    rw [hUnfinished] at hMet
    have hLe := run_of_halted hMore hRun hHalted
    have hLt : steps + 1 ≤ more := hMet
    omega
  rcases hEnds.halted hFinished hBroke hEnded with
    ⟨m₁, hReaches, hHalted₁, hWorld, hMet⟩
  have hSame :=
    eq_of_halted hReaches ⟨steps, hRun⟩ hHalted₁ hHalted
  rw [hSame] at hWorld hMet
  exact ⟨hEnded, hWorld, hMet⟩

/- A longer run meets what a shorter one does. -/
theorem Ends.reaches_of_run
    (hEnds : I.Ends code turns finished exits m out)
    (hFinished : ∀ m', finished m' → I.Halted code m')
    (hBroke : out.1 ≠ .broke)
    (hRun : I.run code steps m = some m')
    (hLe : steps ≤ turns) :
    ∃ m₁, I.Reaches code m' m₁ ∧ m₁.world = out.2 := by
  rcases hEnds with ⟨more, m₁, hMore, hWorld, hMet⟩
  have hSteps : steps ≤ more := by
    rcases out with ⟨ending, w⟩
    cases ending with
    | normal =>
        exact run_of_halted hRun hMore (hFinished m₁ hMet)
    | broke => exact absurd rfl hBroke
    | returned =>
        exact run_of_halted hRun hMore
          (halted_of_returned hMet)
    | unfinished => exact Nat.le_trans hLe hMet
  exact ⟨m₁, ⟨more - steps, run_of_le hRun hMore hSteps⟩,
    hWorld⟩

variable {outs : Nat → Ending × W}

/-
  The executions of a code and the runs with any number of
  turns.
-/
section

variable
  (hEnds : ∀ turns,
    I.Ends code turns finished exits m (outs turns))
  (hFinished : ∀ m', finished m' → I.Halted code m')
  (hBroke : ∀ turns, (outs turns).1 ≠ .broke)

include hEnds hFinished hBroke

/-
  A run that is over ends in one of two ways, and the
  machine meets the same ending in the same world.
-/
theorem ends_iff
    (hNotReturned : ∀ m',
      finished m' → m'.control ≠ .returned)
    {ending : Ending}
    (hEnding : ending = .normal ∨ ending = .returned)
    (w : W) :
    (∃ turns, outs turns = (ending, w)) ↔
      ∃ m', I.Reaches code m m' ∧
        ending.Met 0 0 finished exits m' ∧
        m'.world = w := by
  constructor
  · rintro ⟨turns, hOut⟩
    have hMeets := hEnds turns
    rw [hOut] at hMeets
    rcases hMeets with ⟨steps, m', hRun, hWorld, hMet⟩
    refine ⟨m', ⟨steps, hRun⟩, ?_, hWorld⟩
    rcases hEnding with rfl | rfl <;> exact hMet
  · rintro ⟨m', ⟨steps, hRun⟩, hMet, hWorld⟩
    have hHalted : I.Halted code m' := by
      rcases hEnding with rfl | rfl
      · exact hFinished m' hMet
      · exact halted_of_returned hMet
    refine ⟨steps + 1, ?_⟩
    rcases (hEnds (steps + 1)).of_halted hFinished
        (hBroke (steps + 1)) hRun hHalted with
      ⟨hEnded, hOutWorld, hOutMet⟩
    have hNotBroke := hBroke (steps + 1)
    rw [hWorld] at hOutWorld
    rcases hOut : outs (steps + 1) with ⟨outcome, w'⟩
    rw [hOut] at hEnded hOutWorld hOutMet hNotBroke
    rw [show w' = w from hOutWorld.symm]
    -- where the machine has stopped, the two endings
    -- exclude each other
    cases outcome with
    | normal =>
        rcases hEnding with rfl | rfl
        · rfl
        · exact absurd hMet (hNotReturned m' hOutMet)
    | broke => exact absurd rfl hNotBroke
    | returned =>
        rcases hEnding with rfl | rfl
        · exact absurd hOutMet (hNotReturned m' hMet)
        · rfl
    | unfinished => exact absurd rfl hEnded

/- The machine finishes exactly when a run ends normally. -/
theorem finishes_iff
    (hNotReturned : ∀ m',
      finished m' → m'.control ≠ .returned)
    (w : W) :
    (∃ turns, outs turns = (.normal, w)) ↔
      ∃ m', I.Reaches code m m' ∧ finished m' ∧
        m'.world = w :=
  ends_iff hEnds hFinished hBroke hNotReturned (.inl rfl) w

/- The machine returns exactly when a run does. -/
theorem returns_iff
    (hNotReturned : ∀ m',
      finished m' → m'.control ≠ .returned)
    (w : W) :
    (∃ turns, outs turns = (.returned, w)) ↔
      ∃ m', I.Reaches code m m' ∧ m'.control = .returned ∧
        m'.world = w :=
  ends_iff hEnds hFinished hBroke hNotReturned (.inr rfl) w

/- It goes on for ever exactly when no run ends. -/
theorem diverges_iff :
    (∀ turns, (outs turns).1 = .unfinished) ↔
      ∀ steps, ∃ m', I.run code steps m = some m' := by
  constructor
  · intro hUnfinished steps
    rcases hEnds steps with ⟨more, m₁, hMore, -, hMet⟩
    rw [hUnfinished steps] at hMet
    have hSplit := run_add I code steps (more - steps) m
    rw [Nat.add_sub_cancel' hMet, hMore] at hSplit
    cases hRun : I.run code steps m with
    | none =>
        rw [hRun] at hSplit
        cases hSplit
    | some m' => exact ⟨m', rfl⟩
  · intro hRuns turns
    apply Decidable.byContradiction
    intro hEnded
    rcases (hEnds turns).halted hFinished (hBroke turns)
      hEnded with
      ⟨m', ⟨stop, hStop⟩, hHalted, -, -⟩
    rcases hRuns (stop + 1) with ⟨m₁, hRun⟩
    have hLe := run_of_halted hRun hStop hHalted
    omega

end

end Interpretation

------------------------------------------------------------
-- Text of a Statement
------------------------------------------------------------

/- Place a label where it is needed. -/
def Builder.placeIf
    (b : Builder)
    (needed : Bool)
    (l : Label) : Builder :=
  if needed then b.place l else b

namespace Builder

theorem Writes.placeIf
    {b : Builder}
    {l : Label}
    (needed : Bool)
    (hReserved : l.number < b.nextLabel) :
    Writes [l] b (b.placeIf needed l) := by
  cases needed with
  | true => exact .place hReserved
  | false =>
      apply (Writes.refl b).weaken
      intro k
      simp

theorem prefix_placeIf
    (b : Builder)
    (needed : Bool)
    (l : Label) :
    b.lines.toList <+:
      (b.placeIf needed l).lines.toList := by
  cases needed with
  | true => exact prefix_place b l
  | false => exact List.prefix_refl _

theorem loopExits_placeIf
    (b : Builder)
    (needed : Bool)
    (l : Label) :
    (b.placeIf needed l).loopExits = b.loopExits := by
  cases needed with
  | true => exact loopExits_place b l
  | false => rfl

variable {V W : Type} {I : Interpretation V W}
variable {code : List Line} {base : Nat} {b : Builder}
variable {m : Machine V W}

/-
  Control that goes on behind what was written comes behind
  a label that is placed if it is needed.
-/
theorem Within.reaches_placeIf
    {needed : Bool}
    {l : Label}
    (hWithin : (b.placeIf needed l).Within code base)
    (hBase : base ≤ b.lines.size)
    (hDistinct : Line.Distinct code)
    (hContinues : b.Continues base needed l m) :
    ∃ m', I.Reaches code m m' ∧ m'.world = m.world ∧
      (b.placeIf needed l).between = false ∧
      m'.control =
        .line ((b.placeIf needed l).here base) := by
  cases needed with
  | true =>
      have hReaches :=
        hWithin.reaches_place (I := I) hBase hDistinct
        hContinues.awaits
      exact ⟨_, hReaches, rfl, rfl, rfl⟩
  | false =>
      rcases hContinues with ⟨hFalse, -⟩ | hEnd
      · cases hFalse
      · exact ⟨m, .refl I code m, rfl, hEnd⟩

theorem Within.entry_placeIf
    {needed : Bool}
    {l : Label}
    (hWithin : (b.placeIf needed l).Within code base)
    (hBase : base ≤ b.lines.size)
    (hDistinct : Line.Distinct code)
    (hNeeded : needed = true) :
    Line.entry code l =
      some ((b.placeIf needed l).here base) := by
  cases hNeeded
  exact hWithin.entry_place hBase hDistinct

end Builder

namespace Stmt

variable {V W : Type} {I : Interpretation V W} {st : Stmt}
variable {before after : Label} {b b₁ : Builder}

/- Each label around is placed once. -/
theorem placed_writes
    (hBefore : before.number < b.nextLabel)
    (hAfter : after.number < b.nextLabel)
    (hOk :
      st.lower before after
        (b.placeIf st.needsBefore before) = .ok () b₁) :
    Builder.Writes [before, after] b
      (b₁.placeIf st.needsAfter after) := by
  have hFirst :=
    Builder.Writes.placeIf st.needsBefore hBefore
  have hStmt := (lower_writes st before after).ok hOk
  have hReserved : b.Reserved [after] := by
    simpa [Builder.Reserved] using hAfter
  have hUpTo := hFirst.trans hStmt (Builder.reserved_nil b)
  have hAfter₁ : after.number < b₁.nextLabel :=
    hUpTo.reserved hReserved after
      (List.mem_singleton_self after)
  exact hUpTo.trans (.placeIf st.needsAfter hAfter₁)
    hReserved

/-
  The text of a statement, executed from its start, meets
  the ending of every run, and a normal ending at its end.
-/
theorem placed_ends
    {code : List Line}
    {base : Nat}
    {m : Machine V W}
    (hOpen : b.between = false)
    (hOk :
      st.lower before after
        (b.placeIf st.needsBefore before) = .ok () b₁)
    (hWithin :
      (b₁.placeIf st.needsAfter after).Within code base)
    (hDistinct : Line.Distinct code)
    (hBase : base ≤ b.lines.size)
    (hControl : m.control = .line (b.here base))
    (turns : Nat) :
    I.Ends code turns
      (fun m' =>
        (b₁.placeIf st.needsAfter after).between = false ∧
          m'.control =
            .line
              ((b₁.placeIf st.needsAfter after).here base))
      b.loopExits m (st.run I turns m.world) := by
  have hGrown := (lower_writes st before after).ok hOk
  have hBase₀ := Builder.base_le_of_prefix hBase
    (Builder.prefix_placeIf b st.needsBefore before)
  have hBase₁ :=
    Builder.base_le_of_prefix hBase₀ hGrown.lines
  have hWithin₁ := hWithin.back
    (Builder.prefix_placeIf b₁ st.needsAfter after) hBase₁
  have hWithin₀ := hWithin₁.back hGrown.lines hBase₀
  rcases hWithin₀.reaches_placeIf (I := I) hBase hDistinct
      (.inr ⟨hOpen, hControl⟩) with
    ⟨m₀, hReaches, hWorld, hOpen₀, hControl₀⟩
  have hEnds := lower_simulates I st hOk hOpen₀ hWithin₁
    hDistinct hBase₀ hControl₀
      (hWithin₀.entry_placeIf hBase hDistinct) turns
  rw [Builder.loopExits_placeIf] at hEnds
  rw [← hWorld, ← andThen_normal (st.run I turns)]
  refine Interpretation.Ends.reaches hReaches
    (hEnds.andThen ?_)
  intro m₁ hContinues
  rcases hWithin.reaches_placeIf (I := I) hBase₁ hDistinct
      hContinues with
    ⟨m₂, hBehind, hWorld₂, hEnd⟩
  exact .normal hBehind hWorld₂ hEnd

/-
  The text of a statement does what the statement does.  The
  statement may be nested in any way, and the tests may have
  any outcomes, as the interpretation and its world decide.

  The text comes to its end, in an open block, exactly when
  a run ends normally, and it returns exactly when a run
  does, in the same world and with the same record of tests,
  stores, calls and returns.  It goes on for ever exactly
  when every number of turns leaves the run unfinished.  The
  record of every run, unfinished or not, is that of the
  machine at some point, and the record of the machine at
  any point is the start of that of some run.
-/
theorem lower_preserves_control_flow
    (I : Interpretation V W)
    (hEnclosed : st.breaksEnclosed = true)
    (hOpen : b.between = false)
    (hBefore : before.number < b.nextLabel)
    (hAfter : after.number < b.nextLabel)
    (hNe : before ≠ after)
    (hOk :
      st.lower before after
        (b.placeIf st.needsBefore before) = .ok () b₁)
    (m : Machine V (W × List (Event V)))
    (hStart : m.control = .line 0) :
    let b' := b₁.placeIf st.needsAfter after
    let code := b.emitted b'
    let out turns := st.run I.traced turns m.world
    (∀ w, (∃ turns, out turns = (.normal, w)) ↔
      ∃ m', I.traced.Reaches code m m' ∧
        (b'.between = false ∧
          m'.control = .line code.length) ∧
        m'.world = w) ∧
    (∀ w, (∃ turns, out turns = (.returned, w)) ↔
      ∃ m', I.traced.Reaches code m m' ∧
        m'.control = .returned ∧ m'.world = w) ∧
    ((∀ turns, (out turns).1 = .unfinished) ↔
      ∀ steps, ∃ m', I.traced.run code steps m = some m') ∧
    (∀ turns, ∃ m', I.traced.Reaches code m m' ∧
      m'.world = (out turns).2) ∧
    (∀ m', I.traced.Reaches code m m' →
      ∃ turns, m'.history <+: (out turns).2.2) := by
  intro b' code out
  have hWrites := placed_writes hBefore hAfter hOk
  have hDistinct : Line.Distinct code := by
    apply hWrites.distinct
    simp [hNe]
  have hControl :
      m.control = .line (b.here b.lines.size) := by
    rw [hStart, Builder.here_start]
  have hEnds :
      ∀ turns, I.traced.Ends code turns
        (fun m' =>
          b'.between = false ∧
            m'.control = .line code.length)
        b.loopExits m (out turns) := by
    intro turns
    have hPlaced := placed_ends (I := I.traced) hOpen hOk
      hWrites.within hDistinct (Nat.le_refl _)
        hControl turns
    rwa [Builder.here_end] at hPlaced
  have hFinished :
      ∀ m' : Machine V (W × List (Event V)),
        b'.between = false ∧
          m'.control = .line code.length →
        I.traced.Halted code m' :=
    fun m' hEnd => Interpretation.halted_of_end hEnd.2
  have hNotReturned :
      ∀ m' : Machine V (W × List (Event V)),
        b'.between = false ∧
          m'.control = .line code.length →
        m'.control ≠ .returned := by
    intro m' hEnd hReturned
    rw [hEnd.2] at hReturned
    cases hReturned
  have hBroke : ∀ turns, (out turns).1 ≠ .broke :=
    fun turns => run_ne_broke I.traced turns st
      hEnclosed m.world
  refine ⟨Interpretation.finishes_iff hEnds hFinished hBroke
    hNotReturned, Interpretation.returns_iff hEnds hFinished
      hBroke hNotReturned,
    Interpretation.diverges_iff hEnds hFinished hBroke, ?_,
      ?_⟩
  · intro turns
    rcases hEnds turns with ⟨steps, m', hRun, hWorld, -⟩
    exact ⟨m', ⟨steps, hRun⟩, hWorld⟩
  · rintro m' ⟨steps, hRun⟩
    rcases (hEnds steps).reaches_of_run hFinished
        (hBroke steps) hRun (Nat.le_refl steps) with
      ⟨m₁, ⟨more, hMore⟩, hWorld⟩
    refine ⟨steps, ?_⟩
    rw [← hWorld]
    exact Interpretation.history_prefix_of_run hMore

end Stmt

namespace Stmt

/- Call a function while `more` holds, until `done` does. -/
def pollingLoop : Stmt :=
  let more : Identifier := ⟨"more", .bool, .global, 1⟩
  let done : Identifier := ⟨"done", .bool, .global, 1⟩
  let poll : Identifier := ⟨"poll", .void, .global, 1⟩
  .whileLoop (.read (.var more) 2)
    (.sequence
      (.ifThen (.read (.var done) 3) (.breakLoop 3) 3)
      [.evaluate (.call poll 0 [] [] .void 4) 4])
    2

/-
  The loop is left by the break in its second turn, and its
  text comes to an end with the same record.
-/
theorem pollingLoop_finishes :
    let b := Builder.empty.reserve.2.reserve.2
    let b₁ := (pollingLoop.lower ⟨1⟩ ⟨2⟩).after
      (b.place ⟨1⟩)
    let code := b.emitted (b₁.place ⟨2⟩)
    let start :
      Machine String (List Bool × List (Event String)) :=
      ⟨.line 0, none, none, fun _ => "",
        [true, false, true, true], []⟩
    ∃ m', Interpretation.scripted.traced.Reaches code start
      m' ∧ ((b₁.place ⟨2⟩).between = false ∧
        m'.control = .line code.length) ∧
      m'.world =
        ([], [.tested "@more" true, .tested "@done" false,
          .called "@poll" [],
          .tested "@more" true, .tested "@done" true]) := by
  intro b b₁ code start
  have hEnclosed : pollingLoop.breaksEnclosed =
    true := by decide
  have hOpen : b.between = false := rfl
  have hOk :
      pollingLoop.lower ⟨1⟩ ⟨2⟩
        (b.placeIf pollingLoop.needsBefore ⟨1⟩) =
          .ok () b₁ := rfl
  have hFlow :=
    lower_preserves_control_flow Interpretation.scripted
    hEnclosed hOpen (by decide) (by decide) (by decide) hOk
      start rfl
  exact (hFlow.1 _).mp ⟨3, rfl⟩

end Stmt

end Bracketry
