import Bracketry.Proofs.Code.Writing

/-
  This file defines a machine that executes lines of code.

  What values are, and what a call, a store or a test does
  to the world, is left to an interpretation.  The machine
  settles which instruction is executed when.  Falling into
  a label is not possible, and a merge needs one of its two
  blocks to come from.

  The machine stops behind the last line, at a return, and
  on the way to a label that the lines do not place.  What
  it does can be recorded, so that two runs can be compared
  even if they have no end.

  Main declarations:
    * `Interpretation`
    * `Interpretation.run`
    * `Interpretation.Reaches`
-/

namespace Bracketry

/-
  What instructions do, for values of type `V` in a world of
  type `W`.  Everything that is executed may depend on the
  world and change it, so an interpretation can also keep a
  record of what was executed, and in which order.
-/
structure Interpretation (V W : Type) where
  int : Int → Ty → V
  float : Double → Ty → V
  bool : Bool → Ty → V
  slot : String → Ty → V
  array : List V → Ty → V
  zero : Ty → V
  nothing : Ty → V
  load : Ty → V → StateM W V
  store : V → V → StateM W Unit
  arithmetic : Arithmetic → Ty → V → V → StateM W V
  negate : Ty → V → StateM W V
  compare : Comparison → Ty → V → V → StateM W V
  convert : Conversion → Ty → Ty → V → StateM W V
  element : Ty → V → V → Ty → StateM W V
  call : String → Ty → List V → StateM W V
  test : V → StateM W Bool
  ret : Option V → StateM W Unit

namespace Interpretation

variable {V W : Type}

mutual

/- The value of an operand. -/
def operand
    (I : Interpretation V W)
    (registers : Nat → V) :
    Value → V
| .int n t => I.int n t
| .float x t => I.float x t
| .bool b t => I.bool b t
| .temporary n _ => registers n
| .named name t => I.slot name t
| .array elements t =>
    I.array (operands I registers elements) t
| .zero t => I.zero t
| .void t => I.nothing t

/- The values of several operands. -/
def operands
    (I : Interpretation V W)
    (registers : Nat → V) :
    List Value → List V
| [] => []
| v :: rest =>
    operand I registers v :: operands I registers rest

end

end Interpretation

/- At a line, on the way to a label, or done. -/
inductive Control where
| line (position : Nat)
| target (label : Label)
| returned
deriving DecidableEq

/-
  A machine: where it is, the block it is in and the one it
  came from, the temporaries and the world.
-/
structure Machine (V W : Type) where
  control : Control
  block : Option Label
  previous : Option Label
  registers : Nat → V
  world : W

namespace Machine

variable {V W : Type}

/- Go on somewhere else. -/
def goto
    (m : Machine V W)
    (control : Control) : Machine V W :=
  { m with control := control }

/- Set a temporary. -/
def define
    (m : Machine V W)
    (dest : Nat)
    (value : V) : Machine V W :=
  { m with
    registers := fun n =>
      if n = dest then value else m.registers n }

/- Set a temporary to an outcome, and go on. -/
def receive
    (m : Machine V W)
    (dest : Nat)
    (out : V × W)
    (position : Nat) : Machine V W :=
  { m.define dest out.1 with
    control := .line position
    world := out.2 }

@[simp] theorem registers_receive
    (m : Machine V W)
    (dest : Nat)
    (out : V × W)
    (position : Nat) :
    (m.receive dest out position).registers dest =
      out.1 := by
  simp [receive, define]

end Machine

/- The position behind the line that places a label. -/
def Line.entry
    (code : List Line)
    (l : Label) : Option Nat :=
  match code with
  | [] => none
  | line :: rest =>
      if line.label? = some l then
        some 1
      else
        (entry rest l).map (· + 1)

------------------------------------------------------------
-- Execution
------------------------------------------------------------

namespace Interpretation

variable {V W : Type}

/- Execute an instruction that stands at a position. -/
def exec
    (I : Interpretation V W)
    (m : Machine V W)
    (position : Nat) :
    Instruction → Option (Machine V W)
| .allocate _ _ => some (m.goto (.line (position + 1)))
| .load dest t address =>
    let out :=
      I.load t (I.operand m.registers address) m.world
    some (m.receive dest out (position + 1))
| .store value address =>
    let out := I.store (I.operand m.registers value)
      (I.operand m.registers address) m.world
    some { m with
      control := .line (position + 1), world := out.2 }
| .arithmetic dest op t left right =>
    let out :=
      I.arithmetic op t (I.operand m.registers left)
      (I.operand m.registers right) m.world
    some (m.receive dest out (position + 1))
| .negate dest t operand =>
    let out :=
      I.negate t (I.operand m.registers operand) m.world
    some (m.receive dest out (position + 1))
| .compare dest op t left right =>
    let out := I.compare op t (I.operand m.registers left)
      (I.operand m.registers right) m.world
    some (m.receive dest out (position + 1))
| .convert dest how value target =>
    let out := I.convert how value.ty target
      (I.operand m.registers value) m.world
    some (m.receive dest out (position + 1))
| .element dest container base index part =>
    let out :=
      I.element container (I.operand m.registers base)
      (I.operand m.registers index) part m.world
    some (m.receive dest out (position + 1))
| .call dest t callee args =>
    let out :=
      I.call callee t (I.operands m.registers args) m.world
    match dest with
    | some dest => some (m.receive dest out (position + 1))
    | none =>
        some { m with
          control := .line (position + 1), world := out.2 }
| .merge dest onTrue onFalse =>
    if m.previous = some onTrue then
      some ((m.define dest (I.bool true .bool)).goto
        (.line (position + 1)))
    else if m.previous = some onFalse then
      some ((m.define dest (I.bool false .bool)).goto
        (.line (position + 1)))
    else
      none
| .jump target => some (m.goto (.target target))
| .branch condition onTrue onFalse =>
    let out :=
      I.test (I.operand m.registers condition) m.world
    some { m with
      control := .target (if out.1 then onTrue else onFalse)
      world := out.2 }
| .ret value =>
    let out :=
      I.ret (value.map (I.operand m.registers)) m.world
    some { m with control := .returned, world := out.2 }
| .verbatim _ => none

/- One step of a machine, if it has not stopped. -/
def step
    (I : Interpretation V W)
    (code : List Line)
    (m : Machine V W) : Option (Machine V W) :=
  match m.control with
  | .line position =>
      match code[position]? with
      | some (.instruction i) => I.exec m position i
      | _ => none
  | .target l =>
      (Line.entry code l).map fun position =>
        { m with
          control := .line position
          block := some l
          previous := m.block }
  | .returned => none

/- A number of steps, or fewer up to a stop. -/
def run
    (I : Interpretation V W)
    (code : List Line) :
    Nat → Machine V W → Option (Machine V W)
| 0, m => some m
| steps + 1, m => (I.step code m).bind (run I code steps)

/- A machine gets into a state after some steps. -/
def Reaches
    (I : Interpretation V W)
    (code : List Line)
    (m m' : Machine V W) : Prop :=
  ∃ steps, I.run code steps m = some m'

/- A machine has stopped. -/
def Halted
    (I : Interpretation V W)
    (code : List Line)
    (m : Machine V W) : Prop :=
  I.step code m = none

variable {I : Interpretation V W} {code : List Line}
variable {m m₁ m₂ : Machine V W}

theorem run_succ
    (I : Interpretation V W)
    (code : List Line)
    (steps : Nat)
    (m : Machine V W) :
    I.run code (steps + 1) m =
      (I.step code m).bind (I.run code steps) := rfl

/- A run is a run up to any point and a run from there. -/
theorem run_add
    (I : Interpretation V W)
    (code : List Line)
    (first second : Nat)
    (m : Machine V W) :
    I.run code (first + second) m =
      (I.run code first m).bind (I.run code second) := by
  induction first generalizing m with
  | zero => simp [run]
  | succ first ih =>
      rw [Nat.succ_add, run_succ, run_succ,
        Option.bind_assoc]
      cases I.step code m with
      | none => rfl
      | some next => exact ih next

/- Where a run has come to lies on every longer run. -/
theorem run_of_le
    {few many : Nat}
    (hFew : I.run code few m = some m₁)
    (hMany : I.run code many m = some m₂)
    (hLe : few ≤ many) :
    I.run code (many - few) m₁ = some m₂ := by
  have hSplit := run_add I code few (many - few) m
  rw [Nat.add_sub_cancel' hLe, hFew, hMany] at hSplit
  exact hSplit.symm

/- Nothing lies behind the point where a machine stops. -/
theorem run_of_halted
    {steps stop : Nat}
    (hRun : I.run code steps m = some m₁)
    (hStop : I.run code stop m = some m₂)
    (hHalted : I.Halted code m₂) :
    steps ≤ stop := by
  apply Nat.le_of_not_lt
  intro hLt
  have hRest := run_of_le hStop hRun (Nat.le_of_lt hLt)
  rcases ⟨steps - stop - 1, by omega⟩ with
    ⟨rest, hRestEq⟩ : ∃ rest, steps - stop = rest + 1
  rw [hRestEq, run_succ, hHalted] at hRest
  cases hRest

/- A machine can stop in one state only. -/
theorem eq_of_halted
    (hFirst : I.Reaches code m m₁)
    (hSecond : I.Reaches code m m₂)
    (hHalted₁ : I.Halted code m₁)
    (hHalted₂ : I.Halted code m₂) :
    m₁ = m₂ := by
  rcases hFirst with ⟨steps₁, hRun₁⟩
  rcases hSecond with ⟨steps₂, hRun₂⟩
  have hLe₁ := run_of_halted hRun₁ hRun₂ hHalted₂
  have hLe₂ := run_of_halted hRun₂ hRun₁ hHalted₁
  have hEq : steps₁ = steps₂ := Nat.le_antisymm hLe₁ hLe₂
  rw [hEq, hRun₂] at hRun₁
  exact Option.some.inj hRun₁.symm

namespace Reaches

theorem refl
    (I : Interpretation V W)
    (code : List Line)
    (m : Machine V W) :
    I.Reaches code m m :=
  ⟨0, rfl⟩

theorem trans
    (h₁ : I.Reaches code m m₁)
    (h₂ : I.Reaches code m₁ m₂) :
    I.Reaches code m m₂ := by
  rcases h₁ with ⟨first, hFirst⟩
  rcases h₂ with ⟨second, hSecond⟩
  refine ⟨first + second, ?_⟩
  rw [run_add, hFirst]
  exact hSecond

theorem single
    (h : I.step code m = some m₁) :
    I.Reaches code m m₁ := by
  refine ⟨1, ?_⟩
  rw [run_succ, h]
  rfl

end Reaches

end Interpretation

/- What is recorded of an execution. -/
inductive Event (V : Type) where
| tested (condition : V) (outcome : Bool)
| stored (value address : V)
| called (callee : String) (args : List V)
| returned (value : Option V)
deriving DecidableEq

namespace Interpretation

variable {V W α : Type}

/- An operation that is not recorded. -/
def unrecorded
    (operation : StateM W α) :
      StateM (W × List (Event V)) α :=
  fun (w, events) =>
    let (a, w') := operation w
    (a, w', events)

/- An operation that is recorded when it is done. -/
def recorded
    (event : α → Event V)
    (operation : StateM W α) :
      StateM (W × List (Event V)) α :=
  fun (w, events) =>
    let (a, w') := operation w
    (a, w', events ++ [event a])

/- The same operations with a record of what happens. -/
def traced
    (I : Interpretation V W) :
    Interpretation V (W × List (Event V)) where
  int := I.int
  float := I.float
  bool := I.bool
  slot := I.slot
  array := I.array
  zero := I.zero
  nothing := I.nothing
  load t address := unrecorded (I.load t address)
  store value address :=
    recorded (fun _ => .stored value address)
      (I.store value address)
  arithmetic op t a b := unrecorded (I.arithmetic op t a b)
  negate t a := unrecorded (I.negate t a)
  compare op t a b := unrecorded (I.compare op t a b)
  convert how source target a :=
    unrecorded (I.convert how source target a)
  element container base index part :=
    unrecorded (I.element container base index part)
  call callee t args :=
    recorded (fun _ => .called callee args)
      (I.call callee t args)
  test condition :=
    recorded (.tested condition) (I.test condition)
  ret value :=
    recorded (fun _ => .returned value) (I.ret value)

end Interpretation

/- The record that a machine has kept so far. -/
def Machine.history
    {V W : Type}
    (m : Machine V (W × List (Event V))) : List (Event V) :=
  m.world.2

namespace Interpretation

variable {V W : Type} {I : Interpretation V W}
variable {code : List Line}
variable {m m' : Machine V (W × List (Event V))}

theorem history_prefix_of_exec
    {position : Nat}
    {i : Instruction}
    (hExec : I.traced.exec m position i = some m') :
    m.history <+: m'.history := by
  cases i with
  | verbatim text => cases hExec
  | merge dest onTrue onFalse =>
      simp only [exec] at hExec
      split at hExec
      · cases hExec
        exact List.prefix_refl _
      · split at hExec
        · cases hExec
          exact List.prefix_refl _
        · cases hExec
  | call dest t callee args =>
      cases dest <;> cases hExec <;>
        exact List.prefix_append _ _
  | store value address =>
      cases hExec
      exact List.prefix_append _ _
  | branch condition onTrue onFalse =>
      cases hExec
      exact List.prefix_append _ _
  | ret value =>
      cases hExec
      exact List.prefix_append _ _
  | _ =>
      cases hExec
      exact List.prefix_refl _

theorem history_prefix_of_step
    (hStep : I.traced.step code m = some m') :
    m.history <+: m'.history := by
  unfold step at hStep
  split at hStep
  · split at hStep
    · exact history_prefix_of_exec hStep
    · cases hStep
  · rcases Option.map_eq_some_iff.mp hStep with ⟨_, -, rfl⟩
    exact List.prefix_refl _
  · cases hStep

/- A record only grows. -/
theorem history_prefix_of_run
    {steps : Nat}
    (hRun : I.traced.run code steps m = some m') :
    m.history <+: m'.history := by
  induction steps generalizing m with
  | zero =>
      cases hRun
      exact List.prefix_refl _
  | succ steps ih =>
      rw [run_succ] at hRun
      rcases Option.bind_eq_some_iff.mp hRun with
        ⟨next, hStep, hRest⟩
      exact (history_prefix_of_step hStep).trans (ih hRest)

end Interpretation

/-
  The outcomes of tests are written down in advance, and
  what is read from a variable is the name of its slot.
-/
def Interpretation.scripted :
    Interpretation String (List Bool) where
  int _ _ := ""
  float _ _ := ""
  bool _ _ := ""
  slot name _ := name
  array _ _ := ""
  zero _ := ""
  nothing _ := ""
  load _ address := return address
  store _ _ := return ()
  arithmetic _ _ _ _ := return ""
  negate _ _ := return ""
  compare _ _ _ _ := return ""
  convert _ _ _ _ := return ""
  element _ _ _ _ := return ""
  call _ _ _ := return ""
  test _ := fun
    | [] => (false, [])
    | outcome :: rest => (outcome, rest)
  ret _ := return ()

end Bracketry
