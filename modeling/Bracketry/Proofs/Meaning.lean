import Bracketry.Proofs.Machine
import Bracketry.Stmt.Lowering

/-
  This file says what expressions and statements mean,
  without labels and without lines.  What the operations do
  is left to an interpretation of instructions.

  Operands are evaluated from the left to the right, and the
  second side of a logical operator only when the first does
  not settle the outcome.  Since a loop need not end, a run
  is given a number of turns that no loop may use up; where
  one does, the run is unfinished.
-/

namespace Bracketry

------------------------------------------------------------
-- Expressions
------------------------------------------------------------

section

/- What an expression means in each of its three uses. -/
structure Meaning (V W : Type) where
  value : StateM W V
  valueAs : Ty → StateM W V
  decision : StateM W Bool

namespace Interpretation

variable {V W : Type}

/- The value of an operand that has no temporaries. -/
def constant
    (I : Interpretation V W)
    (v : Value) : V :=
  I.operand (fun _ => I.nothing .void) v

/- A value of one type as a value of another. -/
def converted
    (I : Interpretation V W)
    (source target : Ty)
    (v : V) : StateM W V :=
  if source = target then
    return v
  else
    match Conversion.between? source target with
    | some how => I.convert how source target v
    | none => return v

/- Evaluate a condition and test it. -/
def tested
    (I : Interpretation V W)
    (value : StateM W V) : StateM W Bool := do
  I.test (← value)

end Interpretation

namespace Meaning

variable {V W : Type}

/- A value converted as a whole and tested as a bool. -/
def ofValueAs
    (I : Interpretation V W)
    (value : StateM W V)
    (valueAs : Ty → StateM W V) : Meaning V W where
  value := value
  valueAs := valueAs
  decision := I.tested (valueAs .bool)

/- A value of a type, converted once it is known. -/
def ofValue
    (I : Interpretation V W)
    (source : Ty)
    (value : StateM W V) : Meaning V W :=
  ofValueAs I value fun target => do
    I.converted source target (← value)

/- A literal, known in all types it converts to. -/
def ofLiteral
    (I : Interpretation V W)
    (value : Value)
    (fold : Ty → Option Value) : Meaning V W :=
  ofValueAs I (return I.constant value) fun target =>
    return I.constant ((fold target).getD value)

/- A value that is decided in its own way. -/
def withDecision
    (I : Interpretation V W)
    (value : StateM W V)
    (decision : StateM W Bool) : Meaning V W :=
  { ofValue I .bool value with decision := decision }

/- The outcome of a decision as a value. -/
def ofDecision
    (I : Interpretation V W)
    (decision : StateM W Bool) : Meaning V W :=
  withDecision I (do return I.bool (← decision) .bool)
    decision

/- Both are true; the second counts if the first is. -/
def both (left right : StateM W Bool) : StateM W Bool := do
  if ← left then right else return false

/- One is true; the second counts if the first is not. -/
def either (left right : StateM W Bool) :
    StateM W Bool := do
    if ← left then return true else right

/- The other outcome. -/
def opposite (decision : StateM W Bool) :
    StateM W Bool := do
    return !(← decision)

/- A disjunction fails when both its sides do. -/
theorem either_eq_opposite
    (left right : StateM W Bool) :
    either left right =
      opposite (both (opposite left) (opposite right)) := by
  funext w
  change (if (left w).1 = true then pure true else right)
    (left w).2 =
      (!((if (!(left w).1) = true then opposite right
      else pure false) (left w).2).1,
      ((if (!(left w).1) = true then opposite right
        else pure false) (left w).2).2)
  cases (left w).1 with
  | true => rfl
  | false =>
      change right (left w).2 =
        (!!(right (left w).2).1, (right (left w).2).2)
      rw [Bool.not_not]
      rfl

/- Two values compared in their common type. -/
def compare
    (I : Interpretation V W)
    (op : Comparison)
    (left right : Meaning V W)
    (common : Except Fault Ty) : StateM W V :=
  match common with
  | .error _ => return I.nothing .bool
  | .ok t => do
      let a ← left.valueAs t
      let b ← right.valueAs t
      I.compare op t a b

/- Each argument in the type of its parameter. -/
def valuesEach :
    List (Meaning V W) → List Ty → StateM W (List V)
| arg :: args, param :: params => do
    let value ← arg.valueAs param
    let values ← valuesEach args params
    return value :: values
| _, _ => return []

/- All elements in one type. -/
def valuesAll
    (t : Ty) :
    List (Meaning V W) → StateM W (List V)
| [] => return []
| element :: rest => do
    let value ← element.valueAs t
    let values ← valuesAll t rest
    return value :: values

/- An array literal, element by element. -/
def array
    (I : Interpretation V W)
    (elements : List (Meaning V W))
    (target : Ty) : StateM W V :=
  match target.element? with
  | none => return I.nothing target
  | some t => do
      let values ← valuesAll t elements
      return I.array values target

/- The result of a call. -/
def call
    (I : Interpretation V W)
    (callee : Identifier)
    (args : List (Meaning V W))
    (params : List Ty)
    (t : Ty) : StateM W V := do
  let values ← valuesEach args params
  let result ← I.call callee.storage t values
  return if t = .void then I.nothing t else result

end Meaning

variable {V W : Type}

mutual

/- The address of a place. -/
def Place.located
    (I : Interpretation V W) :
    Place → StateM W V
| .var x => return I.slot x.storage (.pointer x.ty)
| .element parent index t => do
    let base ← Place.located I parent
    let position ← (Expr.meaning I index).valueAs .int
    I.element parent.ty base position t
| .member parent position _ t => do
    let base ← Place.located I parent
    I.element parent.ty base (I.int position .int) t

/- The meaning of an expression. -/
def Expr.meaning
    (I : Interpretation V W) :
    Expr → Meaning V W
| .int value t _ =>
    .ofLiteral I (.int value t) (Value.ofInt? value t)
| .float value _ =>
    .ofLiteral I (.float value .float)
      (Value.ofFloat? value)
| .boolean value _ =>
    .ofDecision I (return value)
| .zero t _ =>
    .ofValue I t (return I.zero t)
| .array elements t _ =>
    let valueAs :=
      Meaning.array I (Expr.meanings I elements)
    .ofValueAs I (valueAs t) valueAs
| .read place _ =>
    .ofValue I place.ty do
      let address ← Place.located I place
      I.load place.ty address
| .arithmetic op left right t _ =>
    .ofValue I t do
      let a ← (Expr.meaning I left).valueAs t
      let b ← (Expr.meaning I right).valueAs t
      I.arithmetic op t a b
| .negate operand t _ =>
    .ofValue I t do
      I.negate t (← (Expr.meaning I operand).value)
| .call callee _ args params t _ =>
    .ofValue I t
      (Meaning.call I callee (Expr.meanings I args)
        params t)
| .compare op left right line =>
    let value := Meaning.compare I op
      (Expr.meaning I left) (Expr.meaning I right)
      (Lowering.comparedAs left.ty right.ty line)
    .withDecision I value (I.tested value)
| .and left right _ =>
    .ofDecision I (Meaning.both
      (Expr.meaning I left).decision
        (Expr.meaning I right).decision)
| .or left right _ =>
    .ofDecision I (Meaning.either
      (Expr.meaning I left).decision
        (Expr.meaning I right).decision)
| .not operand _ =>
    .ofDecision I
      (Meaning.opposite (Expr.meaning I operand).decision)

/- The meanings of several expressions. -/
def Expr.meanings
    (I : Interpretation V W) :
    List Expr → List (Meaning V W)
| [] => []
| e :: rest => Expr.meaning I e :: Expr.meanings I rest

end

end

------------------------------------------------------------
-- Endings
------------------------------------------------------------

/- How the run of a statement ends, or that it did not. -/
inductive Ending where
| normal
| broke
| returned
| unfinished
deriving DecidableEq

namespace Stmt

variable {V W : Type}
variable (decision : StateM W Bool)

/- Only what ends normally is followed by more. -/
def andThen (first second : StateM W Ending) :
    StateM W Ending := do
    match ← first with
    | .normal => second
    | ending => return ending

theorem andThen_apply
    (first second : StateM W Ending)
    (w : W) :
    andThen first second w =
      if (first w).1 = .normal then second (first w).2
      else first w := by
  change (match (first w).1 with
    | .normal => second
    | ending => pure ending) (first w).2 = _
  rcases first w with ⟨ending, w'⟩
  cases ending <;> rfl

/- A break in the body of a loop ends the loop normally. -/
def turn (body next : StateM W Ending) :
    StateM W Ending := do
    match ← body with
    | .normal => next
    | .broke => return .normal
    | ending => return ending

theorem turn_apply
    (body next : StateM W Ending)
    (w : W) :
    turn body next w =
      if (body w).1 = .normal then next (body w).2
      else if (body w).1 = .broke then (.normal, (body w).2)
      else body w := by
  change (match (body w).1 with
    | .normal => next
    | .broke => pure .normal
    | ending => pure ending) (body w).2 = _
  rcases body w with ⟨ending, w'⟩
  cases ending <;> rfl

/- A decision tells which of two runs follows. -/
def decided
    (decision : StateM W Bool)
    (onTrue onFalse : StateM W Ending) :
      StateM W Ending := do
  if ← decision then onTrue else onFalse

theorem decided_apply
    (onTrue onFalse : StateM W Ending)
    (w : W) :
    decided decision onTrue onFalse w =
      if (decision w).1 then onTrue (decision w).2
      else onFalse (decision w).2 := by
  change (if (decision w).1 then onTrue else onFalse)
    (decision w).2 = _
  cases (decision w).1 <;> rfl

/- Some turns of a loop that tests first. -/
def whileTurns
    (decision : StateM W Bool)
    (body : StateM W Ending) :
    Nat → StateM W Ending
| 0 => return .unfinished
| turns + 1 =>
    decided decision
      (turn body (whileTurns decision body turns))
      (return .normal)

/- Some turns of a loop that tests last. -/
def doTurns
    (body : StateM W Ending)
    (decision : StateM W Bool) :
    Nat → StateM W Ending
| 0 => return .unfinished
| turns + 1 =>
    turn body
      (decided decision
        (doTurns body decision turns)
        (return .normal))

/- The value of an expression stored in a place. -/
def assigned
    (I : Interpretation V W)
    (target : Place)
    (value : Expr) : StateM W Unit := do
  let stored ← (value.meaning I).valueAs target.ty
  let address ← target.located I
  I.store stored address

/- The value of an expression handed back. -/
def handedBack
    (I : Interpretation V W)
    (t : Ty) :
    Option Expr → StateM W Unit
| none => I.ret none
| some value => do
    let returned ← (value.meaning I).valueAs t
    I.ret (some returned)

mutual

/- Run a statement, in a number of turns for loops. -/
def run
    (I : Interpretation V W)
    (turns : Nat) :
    Stmt → StateM W Ending
| .empty _ => return .normal
| .sequence head tail =>
    andThen (run I turns head) (runAll I turns tail)
| .ifThen condition body _ =>
    decided (condition.meaning I).decision
      (run I turns body) (return .normal)
| .ifElse condition body other _ =>
    decided (condition.meaning I).decision
      (run I turns body) (run I turns other)
| .whileLoop condition body _ =>
    whileTurns (condition.meaning I).decision
      (run I turns body) turns
| .doWhile body condition _ =>
    doTurns (run I turns body)
      (condition.meaning I).decision turns
| .assign target value _ => do
    assigned I target value
    return .normal
| .ret value t _ => do
    handedBack I t value
    return .returned
| .breakLoop _ => return .broke
| .evaluate call _ => do
    let _ ← (call.meaning I).value
    return .normal

/- Run statements in order. -/
def runAll
    (I : Interpretation V W)
    (turns : Nat) :
    List Stmt → StateM W Ending
| [] => return .normal
| st :: rest =>
    andThen (run I turns st) (runAll I turns rest)

end

mutual

/- Whether every break lies inside a loop. -/
def breaksEnclosed : Stmt → Bool
| .sequence head tail =>
    head.breaksEnclosed && allEnclosed tail
| .ifThen _ body _ => body.breaksEnclosed
| .ifElse _ body other _ =>
    body.breaksEnclosed && other.breaksEnclosed
| .breakLoop _ => false
| _ => true

/- Whether all breaks lie inside loops. -/
def allEnclosed : List Stmt → Bool
| [] => true
| st :: rest => st.breaksEnclosed && allEnclosed rest

end

theorem andThen_ne_broke
    {first second : StateM W Ending}
    (hFirst : ∀ w, (first w).1 ≠ .broke)
    (hSecond : ∀ w, (second w).1 ≠ .broke)
    (w : W) :
    (andThen first second w).1 ≠ .broke := by
  rw [andThen_apply]
  split
  · exact hSecond _
  · exact hFirst w

theorem turn_ne_broke
    {body next : StateM W Ending}
    (hNext : ∀ w, (next w).1 ≠ .broke)
    (w : W) :
    (turn body next w).1 ≠ .broke := by
  rw [turn_apply]
  split
  · exact hNext _
  · split
    · simp
    · assumption

theorem decided_ne_broke
    {onTrue onFalse : StateM W Ending}
    (hTrue : ∀ w, (onTrue w).1 ≠ .broke)
    (hFalse : ∀ w, (onFalse w).1 ≠ .broke)
    (w : W) :
    (decided decision onTrue onFalse w).1 ≠ .broke := by
  rw [decided_apply]
  split
  · exact hTrue _
  · exact hFalse _

theorem normal_ne_broke
    (w : W) :
    ((return .normal : StateM W Ending) w).1 ≠ .broke := by
  intro hEq
  cases hEq

/- A loop does not hand on a break of its body. -/
theorem whileTurns_ne_broke
    (body : StateM W Ending)
    (turns : Nat) :
    ∀ w, (whileTurns decision body turns w).1 ≠ .broke := by
  induction turns with
  | zero =>
      intro w hEq
      cases hEq
  | succ turns ih =>
      exact decided_ne_broke decision (turn_ne_broke ih)
        normal_ne_broke

theorem doTurns_ne_broke
    (body : StateM W Ending)
    (decision : StateM W Bool)
    (turns : Nat) :
    ∀ w, (doTurns body decision turns w).1 ≠ .broke := by
  induction turns with
  | zero =>
      intro w hEq
      cases hEq
  | succ turns ih =>
      exact turn_ne_broke
        (decided_ne_broke decision ih normal_ne_broke)

mutual

/- A break inside a loop does not end a statement. -/
theorem run_ne_broke
    (I : Interpretation V W)
    (turns : Nat) :
    ∀ st : Stmt, st.breaksEnclosed = true →
      ∀ w, (run I turns st w).1 ≠ .broke
| .empty _, _ => by
    rw [run]
    exact normal_ne_broke
| .sequence head tail, hEnclosed => by
    rw [breaksEnclosed, Bool.and_eq_true] at hEnclosed
    rw [run]
    exact andThen_ne_broke
      (run_ne_broke I turns head hEnclosed.1)
      (runAll_ne_broke I turns tail hEnclosed.2)
| .ifThen condition body _, hEnclosed => by
    rw [breaksEnclosed] at hEnclosed
    rw [run]
    exact decided_ne_broke _
      (run_ne_broke I turns body hEnclosed) normal_ne_broke
| .ifElse condition body other _, hEnclosed => by
    rw [breaksEnclosed, Bool.and_eq_true] at hEnclosed
    rw [run]
    exact decided_ne_broke _
      (run_ne_broke I turns body hEnclosed.1)
      (run_ne_broke I turns other hEnclosed.2)
| .whileLoop condition body _, _ => by
    rw [run]
    exact whileTurns_ne_broke _ _ turns
| .doWhile body condition _, _ => by
    rw [run]
    exact doTurns_ne_broke _ _ turns
| .assign target value _, _ => by
    rw [run]
    intro w hEq
    cases hEq
| .ret value t _, _ => by
    rw [run]
    intro w hEq
    cases hEq
| .breakLoop _, hEnclosed => by
    rw [breaksEnclosed] at hEnclosed
    cases hEnclosed
| .evaluate call _, _ => by
    rw [run]
    intro w hEq
    cases hEq

theorem runAll_ne_broke
    (I : Interpretation V W)
    (turns : Nat) :
    ∀ sts : List Stmt, allEnclosed sts = true →
      ∀ w, (runAll I turns sts w).1 ≠ .broke
| [], _ => by
    rw [runAll]
    exact normal_ne_broke
| st :: rest, hEnclosed => by
    rw [allEnclosed, Bool.and_eq_true] at hEnclosed
    rw [runAll]
    exact andThen_ne_broke
      (run_ne_broke I turns st hEnclosed.1)
      (runAll_ne_broke I turns rest hEnclosed.2)

end

end Stmt

end Bracketry
