import Bracketry.Proofs.Program.Blocks
import Mathlib.Algebra.Ring.Nat

/-
  This file counts the labels and the temporaries that
  writing takes.

  A step spends no more than a number when it hands out at
  most that many labels and at most that many temporaries,
  whether it succeeds or ends in a fault.  Appending an
  instruction may take a label, for a block that nothing
  reaches.
-/

namespace Bracketry

namespace Builder

/-
  From the first state to the second at most `n` labels and
  at most `n` temporaries are handed out, and none is taken
  back.
-/
structure Spends
    (n : Nat)
    (b b' : Builder) : Prop where
  labels : b.nextLabel ≤ b'.nextLabel ∧
    b'.nextLabel ≤ b.nextLabel + n
  temporaries : b.nextTemporary ≤ b'.nextTemporary ∧
    b'.nextTemporary ≤ b.nextTemporary + n

namespace Spends

variable {m n : Nat} {b b₁ b' : Builder}

/- The counters stay as they are. -/
theorem of_eq
    (hLabels : b'.nextLabel = b.nextLabel)
    (hTemporaries : b'.nextTemporary = b.nextTemporary) :
    Spends 0 b b' := by
  constructor <;> omega

theorem refl :
    Spends 0 b b :=
  of_eq rfl rfl

theorem trans
    (hFirst : Spends m b b₁)
    (hSecond : Spends n b₁ b') :
    Spends (m + n) b b' := by
  have hLabels := hFirst.labels
  have hMore := hSecond.labels
  have hTemporaries := hFirst.temporaries
  have hOthers := hSecond.temporaries
  constructor <;> omega

theorem weaken
    (hSpends : Spends m b b')
    (hLe : m ≤ n) :
    Spends n b b' := by
  have hLabels := hSpends.labels
  have hTemporaries := hSpends.temporaries
  constructor <;> omega

theorem reserve :
    Spends 1 b b.reserve.2 := by
  constructor <;> simp [Builder.reserve]

theorem number :
    Spends 1 b b.number.2 := by
  constructor <;> simp [Builder.number]

theorem place
    (l : Label) :
    Spends 0 b (b.place l) := by
  unfold Builder.place
  cases b.between with
  | true => exact .of_eq rfl rfl
  | false => exact .of_eq rfl rfl

/- Behind a terminator a dead block is opened. -/
theorem reopen :
    Spends 1 b b.reopen := by
  unfold Builder.reopen
  cases b.between with
  | true => exact reserve.trans (.place _)
  | false => exact Spends.refl.weaken (Nat.zero_le _)

theorem append
    (i : Instruction) :
    Spends 1 b (b.append i) :=
  ⟨reopen.labels, reopen.temporaries⟩

/-
  A number and an instruction: one temporary and at most one
  label, which are counted apart.
-/
theorem define
    (i : Instruction) :
    Spends 1 b (b.number.2.append i) := by
  have hTemporary :
      (b.number.2.append i).nextTemporary =
        b.nextTemporary + 1 := by
    rcases b with ⟨_, _, _, between, _, _⟩
    cases between with
    | true => rfl
    | false => rfl
  have hLabels := (append i : Spends 1 b.number.2 _).labels
  refine ⟨hLabels, ?_⟩
  rw [hTemporary]
  exact ⟨Nat.le_succ _, Nat.le_refl _⟩

/- An open block is left without opening another one. -/
theorem jump
    (l : Label) :
    Spends 0 b (b.jump l) := by
  unfold Builder.jump Builder.append Builder.reopen
  cases b.between with
  | true => exact .refl
  | false => exact .of_eq rfl rfl

theorem branch
    (condition : Value)
    (onTrue onFalse : Option Label) :
    Spends 2 b (b.branch condition onTrue onFalse) := by
  have hThrough : ∀ i, Spends 2 b
      ((b.reserve.2.append i).place b.reserve.1) :=
    fun i => reserve.trans ((append i).trans (.place _))
  cases onTrue with
  | some t =>
      cases onFalse with
      | some f => exact (append _).weaken (Nat.le_succ 1)
      | none => exact hThrough _
  | none =>
      cases onFalse with
      | some f => exact hThrough _
      | none => exact Spends.refl.weaken (Nat.zero_le _)

theorem allocate
    (slot : String)
    (t : Ty) :
    Spends 1 b (b.allocate slot t) := by
  unfold Builder.allocate
  split
  · exact Spends.refl.weaken (Nat.zero_le _)
  · have hNoted : Spends 0 b
      { b with allocated := slot :: b.allocated } :=
      .of_eq rfl rfl
    exact hNoted.trans (append _)

end Spends

/- Every step spends something, if no bound is asked for. -/
theorem Steps.spends
    {allowed : Instruction → Prop}
    {b b' : Builder}
    (hSteps : b.Steps allowed b') :
    ∃ n, Spends n b b' := by
  induction hSteps with
  | refl => exact ⟨_, .refl⟩
  | trans _ _ ih₁ ih₂ =>
      rcases ih₁ with ⟨_, hFirst⟩
      rcases ih₂ with ⟨_, hSecond⟩
      exact ⟨_, hFirst.trans hSecond⟩
  | reserve => exact ⟨_, .reserve⟩
  | number => exact ⟨_, .number⟩
  | place l => exact ⟨_, .place l⟩
  | jump l => exact ⟨_, .jump l⟩
  | append _ => exact ⟨_, .append _⟩
  | note slots => exact ⟨_, .of_eq rfl rfl⟩
  | exits exits => exact ⟨_, .of_eq rfl rfl⟩

end Builder

namespace Build

variable {α β : Type}

/- At most `n` labels and `n` temporaries. -/
def Spends
    (n : Nat)
    (x : Build α) : Prop :=
  ∀ b : Builder, Builder.Spends n b (x.after b)

namespace Spends

variable {m n : Nat}

theorem pure
    (a : α) :
    Spends 0 (pure a : Build α) :=
  fun _ => .refl

theorem throw
    (fault : Fault) :
    Spends 0 (throw fault : Build α) :=
  fun _ => .refl

variable {x : Build α} {f : α → Build β}

theorem weaken
    (hSpends : Spends m x)
    (hLe : m ≤ n) :
    Spends n x :=
  fun b => (hSpends b).weaken hLe

/- A step is paid, and leaves the rest. -/
theorem bindOf
    (hFirst : Spends m x)
    (hLe : m ≤ n)
    (hSecond :
      ∀ a, (∃ b b', x b = .ok a b') →
        Spends (n - m) (f a)) :
    Spends n (x >>= f) := by
  intro b
  have h₁ := hFirst b
  change Builder.Spends n b (after (EStateM.bind x f) b)
  unfold after EStateM.bind
  unfold after at h₁
  cases hRun : x b with
  | ok a b₁ =>
      rw [hRun] at h₁
      exact (h₁.trans (hSecond a ⟨b, b₁, hRun⟩ b₁)).weaken
        (by omega)
  | error fault b₁ =>
      rw [hRun] at h₁
      exact h₁.weaken hLe

theorem bind
    (hFirst : Spends m x)
    (hLe : m ≤ n)
    (hSecond : ∀ a, Spends (n - m) (f a)) :
    Spends n (x >>= f) :=
  hFirst.bindOf hLe fun a _ => hSecond a

/- Some steps cost nothing. -/
theorem free
    (hFirst : Spends 0 x)
    (hSecond : ∀ a, Spends n (f a)) :
    Spends n (x >>= f) :=
  hFirst.bind (Nat.zero_le n) hSecond

/- Looking at the state costs nothing. -/
theorem getBind
    {f : Builder → Build α}
    (hNext : ∀ b, Spends n (f b)) :
    Spends n (get >>= f) :=
  fun b => hNext b b

theorem label :
    Spends 1 Build.label :=
  fun _ => .reserve

theorem place
    (l : Label) :
    Spends 0 (Build.place l) :=
  fun _ => .place l

theorem append
    (i : Instruction) :
    Spends 1 (Build.append i) :=
  fun _ => .append i

theorem jump
    (l : Label) :
    Spends 0 (Build.jump l) :=
  fun _ => .jump l

theorem branch
    (condition : Value)
    (onTrue onFalse : Option Label) :
    Spends 2 (Build.branch condition onTrue onFalse) :=
  fun _ => .branch condition onTrue onFalse

theorem allocate
    (slot : String)
    (t : Ty) :
    Spends 1 (Build.allocate slot t) :=
  fun _ => .allocate slot t

theorem define
    (t : Ty)
    (i : Nat → Instruction) :
    Spends 1 (Build.define t i) :=
  fun _ => .define _

theorem insideLoop
    {body : Build α}
    (exit : Label)
    (hBody : Spends n body) :
    Spends n (Build.insideLoop exit body) := by
  intro b
  have hInside :=
    hBody { b with loopExits := exit :: b.loopExits }
  unfold after at hInside
  unfold after Build.insideLoop
  cases hRun :
    body { b with loopExits := exit :: b.loopExits } with
  | ok a b' =>
      rw [hRun] at hInside
      exact ⟨hInside.labels, hInside.temporaries⟩
  | error fault b' =>
      rw [hRun] at hInside
      exact ⟨hInside.labels, hInside.temporaries⟩

end Spends

end Build

/- Three labels, the choice, and its value. -/
theorem Lowering.merge_spends
    {m n : Nat}
    {branches : Choice}
    (hBranches :
      ∀ onTrue onFalse : Label,
        Build.Spends m
          (branches (some onTrue) (some onFalse)))
    (hLe : m + 4 ≤ n) :
    Build.Spends n (merge branches) := by
  refine Build.Spends.label.bind (by omega) fun onTrue => ?_
  refine Build.Spends.label.bind (by omega) fun onFalse =>
    ?_
  refine Build.Spends.label.bind (by omega) fun done => ?_
  refine (hBranches onTrue onFalse).bind (by omega) fun _ =>
    ?_
  refine (Build.Spends.place onTrue).free fun _ => ?_
  refine (Build.Spends.jump done).free fun _ => ?_
  refine (Build.Spends.place onFalse).free fun _ => ?_
  refine (Build.Spends.jump done).free fun _ => ?_
  refine (Build.Spends.place done).free fun _ => ?_
  exact (Build.Spends.define _ _).weaken (by omega)

theorem Stmt.lowerBreak_spends
    (line : Nat) :
    Build.Spends 0 (lowerBreak line) := by
  apply Build.Spends.getBind
  intro b
  split
  · exact .jump _
  · exact .throw _

/- A step takes no more than it may. -/
def Build.Discipline.spends : Build.Discipline where
  Holds := fun _ _ _ n _ _ x => Spends n x
  pure := fun _ => (Spends.pure _).weaken (Nat.zero_le _)
  throw := fun fault =>
    (Spends.throw fault).weaken (Nat.zero_le _)
  afford := .weaken
  supplyOf := .bindOf
  bindOf := .bind
  perm := fun hFirst _ => hFirst
  labelIf := fun _ hLe hNext => Spends.label.bind hLe hNext
  place := fun _ => (Spends.place _).weaken (Nat.zero_le _)
  jump := fun _ => (Spends.jump _).weaken (Nat.zero_le _)
  branch := fun _ _ _ hLe =>
    (Spends.branch _ _ _).weaken hLe
  append := fun _ _ _ _ _ hLe =>
    (Spends.append _).weaken hLe
  define := fun _ _ _ _ hLe =>
      (Spends.define _ _).weaken hLe
  allocate := fun _ _ hLe =>
    (Spends.allocate _ _).weaken hLe
  merge := Lowering.merge_spends
  insideLoop := fun _ hBody => .insideLoop _ hBody
  leaving := id
  getBind := .getBind
  leave := fun line _ =>
    (Stmt.lowerBreak_spends line).weaken (Nat.zero_le _)

namespace FunctionDef

theorem lower_spends
    (f : FunctionDef) :
    Build.Spends f.cost f.lower := by
  have hClear : Build.Spends 0 (modify fun b : Builder =>
      { b with
        lines := #[], allocated := [],
        between := false }) :=
    fun _ => .of_eq rfl rfl
  exact hClear.free fun _ => f.lower_respects .spends

theorem lowerAll_spends
    (fs : List FunctionDef) :
    Build.Spends (fs.map cost).sum (lowerAll fs) := by
  induction fs with
  | nil => exact .pure []
  | cons f rest ih =>
      rw [List.map_cons, List.sum_cons]
      refine f.lower_spends.bind (Nat.le_add_right _ _)
        fun _ => ?_
      refine ih.bind (by omega) fun _ => ?_
      exact (Build.Spends.pure _).weaken (Nat.zero_le _)

end FunctionDef

/-
  A state of writing a program comes behind another one: by
  elementary steps, and where a function starts on a page of
  its own.
-/
inductive Builder.Reaches : Builder → Builder → Prop
| steps {b b' : Builder} :
    b.Steps Instruction.Marked b' → Reaches b b'
| cleared {b : Builder} :
    Reaches b b.cleared
| trans {b b₁ b₂ : Builder} :
    Reaches b b₁ → Reaches b₁ b₂ → Reaches b b₂

namespace Builder.Reaches

variable {b b' : Builder}

/- Counters only grow. -/
theorem spends
    (hReaches : b.Reaches b') :
    ∃ n, Builder.Spends n b b' := by
  induction hReaches with
  | steps hSteps => exact hSteps.spends
  | cleared => exact ⟨0, .of_eq rfl rfl⟩
  | trans _ _ ih₁ ih₂ =>
      rcases ih₁ with ⟨_, hFirst⟩
      rcases ih₂ with ⟨_, hSecond⟩
      exact ⟨_, hFirst.trans hSecond⟩

end Builder.Reaches

namespace FunctionDef

theorem lower_reaches
    (f : FunctionDef)
    (b : Builder) :
    b.Reaches (f.lower.after b) := by
  exact Builder.Reaches.cleared.trans
    (.steps (f.lower_respects .steps b.cleared))

theorem lowerAll_reaches
    (fs : List FunctionDef)
    (b : Builder) :
    b.Reaches ((lowerAll fs).after b) := by
  induction fs generalizing b with
  | nil => exact .steps .refl
  | cons f rest ih =>
      have hFirst := f.lower_reaches b
      unfold Build.after at hFirst ih ⊢
      rw [lowerAll]
      cases hRun : f.lower b with
      | error fault b₁ =>
          rw [hRun] at hFirst
          rw [Step.bind_of_error hRun]
          exact hFirst
      | ok d b₁ =>
          have hRest := ih b₁
          rw [hRun] at hFirst
          rw [Step.bind_of_ok hRun]
          cases hOthers : lowerAll rest b₁ with
          | error fault b₂ =>
              rw [hOthers] at hRest
              rw [Step.bind_of_error hOthers]
              exact hFirst.trans hRest
          | ok ds b₂ =>
              rw [hOthers] at hRest
              rw [Step.bind_of_ok hOthers]
              exact hFirst.trans hRest

end FunctionDef

end Bracketry
