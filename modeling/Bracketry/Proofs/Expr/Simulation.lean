import Bracketry.Proofs.Meaning
import Bracketry.Proofs.Expr.Operand

/-
  This file says when the code of a step does what a run
  does, for every interpretation of instructions, and how
  such steps are put together.

  Executed from an open block, the code of an operand ends
  in an open block behind it, with the operand denoting the
  value meant.  All temporaries handed out before are kept,
  so the operands computed first survive whatever code comes
  between.

  Main declarations:
    * `Build.Realizes` and `Build.Computes`
    * `Build.Realizes.perform`
    * `Build.Computes.convertValue`
-/

namespace Bracketry

variable {V W : Type}

namespace Build

/-
  Executing what a step wrote, from an open block, performs
  a run and ends in an open block, where what the step gave
  denotes the result of the run.
-/
def Realizes
    (I : Interpretation V W)
    {α β : Type}
    (denotes : (Nat → V) → α → β → Prop)
    (x : Build α)
    (run : StateM W β) : Prop :=
  ∀ ⦃b : Builder⦄ ⦃a : α⦄ ⦃b' : Builder⦄,
    x b = .ok a b' →
    b.between = false →
    b'.between = false ∧
      ∀ ⦃code : List Line⦄ ⦃base : Nat⦄ ⦃m : Machine V W⦄,
        b'.Within code base →
        Line.Distinct code →
        base ≤ b.lines.size →
        m.control = .line (b.here base) →
        ∃ m', I.Passes code base b.nextTemporary b' m m' ∧
          m'.world = (run m.world).2 ∧
          denotes m'.registers a (run m.world).1

/- An operand denotes the result of a run. -/
def Computes
    (I : Interpretation V W)
    (x : Build Value)
    (run : StateM W V) : Prop :=
  Realizes I
    (fun registers v value => I.operand registers v = value)
      x run

/- Operands denote the results of a run. -/
def ComputesAll
    (I : Interpretation V W)
    (x : Build (List Value))
    (run : StateM W (List V)) : Prop :=
  Realizes I
    (fun registers vs values =>
      I.operands registers vs = values)
    x run

/- A step that writes nothing performs nothing. -/
theorem Realizes.pure
    {I : Interpretation V W}
    {α β : Type}
    {denotes : (Nat → V) → α → β → Prop}
    {a : α}
    {value : β}
    (hDenotes : ∀ registers, denotes registers a value) :
    Realizes I denotes (pure a) (pure value) := by
  intro b a' b' hOk hOpen
  rcases Step.pure_eq_ok.mp hOk with ⟨rfl, rfl⟩
  refine ⟨hOpen, ?_⟩
  intro code base m _ _ _ hControl
  exact ⟨m, .refl I code _ hControl, rfl,
    hDenotes m.registers⟩

end Build

namespace Interpretation

variable {I : Interpretation V W} {code : List Line}
variable {base : Nat} {b : Builder} {m m' : Machine V W}

/- The machine passes an instruction that it executes. -/
theorem passes_append
    {i : Instruction}
    (hWithin : (b.append i).Within code base)
    (hBase : base ≤ b.lines.size)
    (hOpen : b.between = false)
    (hControl : m.control = .line (b.here base))
    (hExec : I.exec m (b.here base) i = some m')
    (hNext : m'.control = .line (b.here base + 1))
    (hKept :
      ∀ n < b.nextTemporary, m'.registers n =
        m.registers n) :
    I.Passes code base b.nextTemporary (b.append i)
      m m' where
  reaches := by
    have hStep :=
      hWithin.step_append (I := I) hBase hOpen hControl
    exact .single (hStep.trans hExec)
  control := by
    rw [hNext, Builder.here_append i hOpen hBase]
  kept := hKept

/-
  The machine passes an instruction that defines a temporary
  handed out for it.
-/
theorem passes_define
    {i : Instruction}
    {out : V × W}
    (hWithin : (b.number.2.append i).Within code base)
    (hBase : base ≤ b.lines.size)
    (hOpen : b.between = false)
    (hControl : m.control = .line (b.here base))
    (hExec :
      I.exec m (b.here base) i =
        some (m.receive b.nextTemporary out
          (b.here base + 1))) :
    I.Passes code base b.nextTemporary (b.number.2.append i)
      m (m.receive b.nextTemporary out
        (b.here base + 1)) := by
  refine ⟨?_, ?_, ?_⟩
  · have hStep :=
      hWithin.step_append (b := b.number.2) (I := I)
      hBase hOpen hControl
    exact .single (hStep.trans hExec)
  · have hHere :=
      Builder.here_append (b := b.number.2) i hOpen hBase
    rw [hHere]
    rfl
  · intro n hLt
    have hNe : n ≠ b.nextTemporary := Nat.ne_of_lt hLt
    simp [Machine.receive, Machine.define, hNe]

end Interpretation

namespace Build

variable {I : Interpretation V W} {α β γ δ : Type}
variable {x : Build α} {run : StateM W β}
variable {denotes : (Nat → V) → α → β → Prop}

/-
  What the results of a step denote may be told with
  whatever else is known of them.
-/
theorem Realizes.imp
    {denotes denotes' : (Nat → V) → α → β → Prop}
    (hRuns : Realizes I denotes x run)
    (hImp :
      ∀ ⦃b a b'⦄, x b = .ok a b' →
        ∀ registers c,
          denotes registers a c → denotes' registers a c) :
    Realizes I denotes' x run := by
  intro b a b' hOk hOpen
  rcases hRuns hOk hOpen with ⟨hOpen', hPasses⟩
  refine ⟨hOpen', ?_⟩
  intro code base m hWithin hDistinct hBase hControl
  rcases hPasses hWithin hDistinct hBase hControl with
    ⟨m', hTo, hWorld, hDenotes⟩
  exact ⟨m', hTo, hWorld, hImp hOk _ _ hDenotes⟩

/- Results put together in another form. -/
theorem Realizes.map
    {denotesMap : (Nat → V) → γ → δ → Prop}
    (hRuns : Realizes I denotes x run)
    (f : α → γ)
    (g : β → δ)
    (hDenotes :
      ∀ registers a c,
        denotes registers a c →
        denotesMap registers (f a) (g c)) :
    Realizes I denotesMap
      (do return f (← x))
      (do return g (← run)) := by
  intro b result b' hOk hOpen
  rcases Step.bind_eq_ok.mp hOk with ⟨a, b₁, hFirst, hOk⟩
  rcases Step.pure_eq_ok.mp hOk with ⟨rfl, rfl⟩
  rcases hRuns hFirst hOpen with ⟨hOpen₁, hPasses⟩
  refine ⟨hOpen₁, ?_⟩
  intro code base m hWithin hDistinct hBase hControl
  rcases hPasses hWithin hDistinct hBase hControl with
    ⟨m', hTo, hWorld, hResult⟩
  exact ⟨m', hTo, hWorld, hDenotes _ _ _ hResult⟩

/-
  An operand computed before another step.  It survives the
  code of that step, which defines other temporaries.
-/
theorem Computes.andThen
    {x : Build Value}
    {y : Build α}
    {first : StateM W V}
    {second : StateM W β}
    {t : Ty}
    {denotesBoth : (Nat → V) → γ → δ → Prop}
    (hFirst : Computes I x first)
    (hSecond : Realizes I denotes y second)
    (hYields : Yields t x)
    (hWritesX : Writes [] x)
    (hWritesY : Writes [] y)
    (pair : Value → α → γ)
    (results : V → β → δ)
    (hDenotes :
      ∀ registers u a c,
        denotes registers a c →
        denotesBoth registers (pair u a)
          (results (I.operand registers u) c)) :
    Realizes I denotesBoth
      (do
        let u ← x
        let a ← y
        return pair u a)
      (do
        let v ← first
        let c ← second
        return results v c) := by
  intro b result b' hOk hOpen
  rcases Step.bind_eq_ok.mp hOk with ⟨u, b₁, hOkX, hOk⟩
  rcases Step.bind_eq_ok.mp hOk with ⟨a, b₂, hOkY, hOk⟩
  rcases Step.pure_eq_ok.mp hOk with ⟨rfl, rfl⟩
  rcases hFirst hOkX hOpen with ⟨hOpen₁, hRuns₁⟩
  rcases hSecond hOkY hOpen₁ with ⟨hOpen₂, hRuns₂⟩
  have hGrown₁ := hWritesX.ok hOkX
  have hGrown₂ := hWritesY.ok hOkY
  refine ⟨hOpen₂, ?_⟩
  intro code base m hWithin hDistinct hBase hControl
  have hBase₁ :=
    Builder.base_le_of_prefix hBase hGrown₁.lines
  have hWithin₁ := hWithin.back hGrown₂.lines hBase₁
  rcases hRuns₁ hWithin₁ hDistinct hBase hControl with
    ⟨m₁, hPasses₁, hWorld₁, hDenotes₁⟩
  rcases hRuns₂ hWithin hDistinct hBase₁
    hPasses₁.control with
    ⟨m₂, hPasses₂, hWorld₂, hDenotes₂⟩
  have hKept :
      I.operand m₂.registers u = I.operand m₁.registers u :=
    I.operand_eq_of_below hPasses₂.kept (hYields hOkX).2
  refine ⟨m₂, hPasses₁.trans hPasses₂ hGrown₁.temporaries,
    ?_, ?_⟩
  · change m₂.world = (second (first m.world).2).2
    rw [hWorld₂, hWorld₁]
  · change denotesBoth m₂.registers (pair u a)
      (results (first m.world).1
        (second (first m.world).2).1)
    rw [← hDenotes₁, ← hKept, ← hWorld₁]
    exact hDenotes _ _ _ _ hDenotes₂

/-
  Results computed first and an instruction that defines a
  temporary from them.
-/
theorem Realizes.define
    (hRuns : Realizes I denotes x run)
    (hWrites : Writes [] x)
    (t : Ty)
    (i : Nat → α → Instruction)
    (op : β → StateM W V)
    (hPlain : ∀ dest a, (i dest a).endsBlock = false)
    (hExec :
      ∀ dest a c (m : Machine V W) position,
        denotes m.registers a c →
        I.exec m position (i dest a) =
          some (m.receive dest (op c m.world)
            (position + 1))) :
    Computes I
      (x >>= fun a => Build.define t fun dest => i dest a)
      (run >>= op) := by
  intro b result b' hOk hOpen
  rcases Step.bind_eq_ok.mp hOk with ⟨a, b₁, hFirst, hOk⟩
  rw [define_eq] at hOk
  cases hOk
  rcases hRuns hFirst hOpen with ⟨hOpen₁, hPasses⟩
  have hGrown := hWrites.ok hFirst
  refine ⟨hPlain _ _, ?_⟩
  intro code base m hWithin hDistinct hBase hControl
  have hBase₁ :=
    Builder.base_le_of_prefix hBase hGrown.lines
  have hWithin₁ : b₁.Within code base :=
    hWithin.back (Builder.Writes.append b₁.number.2 _).lines
      hBase₁
  rcases hPasses hWithin₁ hDistinct hBase hControl with
    ⟨m₁, hTo, hWorld, hDenotes⟩
  have hLast := Interpretation.passes_define hWithin hBase₁
    hOpen₁ hTo.control
    (hExec b₁.nextTemporary a _ m₁ (b₁.here base) hDenotes)
  refine ⟨_, hTo.trans hLast hGrown.temporaries, ?_, ?_⟩
  · change (op (run m.world).1 m₁.world).2 =
      (op (run m.world).1 (run m.world).2).2
    rw [hWorld]
  · change I.operand _ _ =
      (op (run m.world).1 (run m.world).2).1
    rw [Interpretation.operand, Machine.registers_receive,
      hWorld]

/-
  Results computed first and an instruction that changes the
  world with them.
-/
theorem Realizes.perform
    (hRuns : Realizes I denotes x run)
    (hWrites : Writes [] x)
    (i : α → Instruction)
    (op : β → StateM W γ)
    (hPlain : ∀ a, (i a).endsBlock = false)
    (hExec :
      ∀ a c (m : Machine V W) position,
        denotes m.registers a c →
        I.exec m position (i a) =
          some { m with
            control := .line (position + 1)
            world := (op c m.world).2 }) :
    Realizes I (fun _ (_ : Unit) (_ : γ) => True)
      (x >>= fun a => Build.append (i a))
      (run >>= op) := by
  intro b result b' hOk hOpen
  rcases Step.bind_eq_ok.mp hOk with ⟨a, b₁, hFirst, hOk⟩
  rcases Step.modify_eq_ok.mp hOk with rfl
  rcases hRuns hFirst hOpen with ⟨hOpen₁, hPasses⟩
  have hGrown := hWrites.ok hFirst
  refine ⟨hPlain _, ?_⟩
  intro code base m hWithin hDistinct hBase hControl
  have hBase₁ :=
    Builder.base_le_of_prefix hBase hGrown.lines
  have hWithin₁ : b₁.Within code base :=
    hWithin.back (Builder.Writes.append b₁ _).lines hBase₁
  rcases hPasses hWithin₁ hDistinct hBase hControl with
    ⟨m₁, hTo, hWorld, hDenotes⟩
  have hLast := Interpretation.passes_append hWithin hBase₁
    hOpen₁ hTo.control
      (hExec a _ m₁ (b₁.here base) hDenotes) rfl
    (fun _ _ => rfl)
  refine ⟨_, hTo.trans hLast hGrown.temporaries,
    ?_, trivial⟩
  change (op (run m.world).1 m₁.world).2 =
    (op (run m.world).1 (run m.world).2).2
  rw [hWorld]

/- An operand, and an instruction that uses it. -/
theorem Computes.define
    {x : Build Value}
    {run : StateM W V}
    (hValue : Computes I x run)
    (hWrites : Writes [] x)
    (t : Ty)
    (i : Nat → Value → Instruction)
    (op : V → StateM W V)
    (hPlain : ∀ dest v, (i dest v).endsBlock = false)
    (hExec :
      ∀ dest v (m : Machine V W) position,
        I.exec m position (i dest v) =
          some (m.receive dest
            (op (I.operand m.registers v) m.world)
            (position + 1))) :
    Computes I
      (x >>= fun v => Build.define t fun dest => i dest v)
      (run >>= op) := by
  apply Realizes.define hValue hWrites t i op hPlain
  intro dest v c m position hDenotes
  rw [hExec, hDenotes]

/- Two operands and an instruction that combines them. -/
theorem Computes.combine
    {x y : Build Value}
    {first second : StateM W V}
    {s : Ty}
    (hFirst : Computes I x first)
    (hSecond : Computes I y second)
    (hYields : Yields s x)
    (hWritesX : Writes [] x)
    (hWritesY : Writes [] y)
    (t : Ty)
    (i : Nat → Value → Value → Instruction)
    (op : V → V → StateM W V)
    (hPlain : ∀ dest u v, (i dest u v).endsBlock = false)
    (hExec :
      ∀ dest u v (m : Machine V W) position,
        I.exec m position (i dest u v) =
          some (m.receive dest
            (op (I.operand m.registers u)
              (I.operand m.registers v) m.world)
            (position + 1))) :
    Computes I
      (do
        let u ← x
        let v ← y
        Build.define t fun dest => i dest u v)
      (do
        let a ← first
        let b ← second
        op a b) := by
  have hPair :
      Realizes I
        (fun registers (p : Value × Value) (c : V × V) =>
          (I.operand registers p.1,
            I.operand registers p.2) = c)
        (do
          let u ← x
          let v ← y
          return (u, v))
        (do
          let a ← first
          let b ← second
          return (a, b)) := by
    apply hFirst.andThen hSecond hYields hWritesX hWritesY
    intro registers u v c hDenotes
    rw [hDenotes]
  have hDefine := hPair.define
    (hWritesX.bind_nil fun u => hWritesY.bind_nil fun v =>
      .pure _) t
    (fun dest p => i dest p.1 p.2)
    (fun c => op c.1 c.2)
    (fun dest p => hPlain dest p.1 p.2)
    (by
      intro dest p c m position hDenotes
      rw [hExec, ← hDenotes])
  simpa only [bind_assoc, pure_bind] using hDefine

/- An operand converted by at most one instruction. -/
theorem Computes.convertValue
    {x : Build Value}
    {run : StateM W V}
    {source : Ty}
    (hValue : Computes I x run)
    (hYields : Yields source x)
    (hWrites : Writes [] x)
    (target : Ty)
    (line : Nat) :
    Computes I
      (x >>= fun value =>
        Build.convertValue value target line)
      (run >>= I.converted source target) := by
  intro b result b' hOk hOpen
  rcases Step.bind_eq_ok.mp hOk with
    ⟨v, b₁, hFirst, hSecond⟩
  have hTy := (hYields hFirst).1
  unfold Build.convertValue at hSecond
  rw [hTy] at hSecond
  by_cases hSame : source = target
  · simp only [hSame, if_true] at hSecond
    rcases Step.pure_eq_ok.mp hSecond with ⟨rfl, rfl⟩
    rcases hValue hFirst hOpen with ⟨hOpen₁, hRuns⟩
    refine ⟨hOpen₁, ?_⟩
    intro code base m hWithin hDistinct hBase hControl
    rcases hRuns hWithin hDistinct hBase hControl with
      ⟨m₁, hPasses, hWorld, hDenotes⟩
    have hRun :
        (run >>= I.converted source target) m.world =
          run m.world := by
      change I.converted source target (run m.world).1
        (run m.world).2 = run m.world
      simp only [Interpretation.converted, hSame, if_true]
      rfl
    rw [hRun]
    exact ⟨m₁, hPasses, hWorld, hDenotes⟩
  · simp only [hSame, if_false] at hSecond
    cases hHow : Conversion.between? source target with
    | none =>
        rw [hHow] at hSecond
        cases hSecond
    | some how =>
        rw [hHow] at hSecond
        have hOk' :
            (x >>= fun v => Build.define target fun dest =>
              .convert dest how v target) b =
                .ok result b' :=
          Step.bind_eq_ok.mpr ⟨v, b₁, hFirst, hSecond⟩
        have hTyped :
            Realizes I
              (fun registers v c =>
                I.operand registers v = c ∧ v.ty = source) x
                  run :=
          hValue.imp fun _ _ _ hOk _ _ hDenotes =>
            ⟨hDenotes, (hYields hOk).1⟩
        have hDefine := hTyped.define hWrites target
          (fun dest v => .convert dest how v target)
          (I.converted source target)
          (fun _ _ => rfl)
          (by
            intro dest v c m position hDenotes
            rcases hDenotes with ⟨rfl, rfl⟩
            simp only [Interpretation.converted, hSame,
              if_false, hHow]
            rfl)
        exact hDefine hOk' hOpen

end Build

end Bracketry
