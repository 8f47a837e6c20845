import Bracketry.Expr.Lowering
import Bracketry.Stmt

/-
  This file writes the code of statements.

  A statement is written between two labels: one where its
  code starts, and one where control goes on behind it.  The
  caller places a label only if the statement needs it.
-/

namespace Bracketry

namespace Stmt

/- Whether control comes back to the start. -/
def needsBefore : Stmt → Bool
| .sequence head _ => head.needsBefore
| .whileLoop _ _ _ => true
| .doWhile _ _ _ => true
| _ => false

mutual

/- Whether control leaves for the point behind. -/
def needsAfter : Stmt → Bool
| .sequence head tail => lastNeedsAfter head.needsAfter tail
| .ifThen _ _ _ => true
| .ifElse _ _ _ _ => true
| .whileLoop _ _ _ => true
| .doWhile _ _ _ => true
| _ => false

/- What the last of several statements needs. -/
def lastNeedsAfter : Bool → List Stmt → Bool
| needed, [] => needed
| _, st :: rest => lastNeedsAfter st.needsAfter rest

end

/- Code between a label before it and a label behind it. -/
abbrev Between :=
  Label → Label → Build Unit

/-
  Code with more code behind it, which says whether it needs
  the label where it starts.
-/
def follow
    (head : Between)
    (headNeedsAfter : Bool) :
    Option (Bool × Between) → Between
| none => head
| some (tailNeedsBefore, tail) =>
    fun before after => do
      let between ← Build.label
      head before between
      if headNeedsAfter || tailNeedsBefore then
        Build.place between
      tail between after

/- A choice to run a statement. -/
def lowerIf
    (condition : Choice)
    (body : Between) : Between :=
  fun _ after => do
    let onTrue ← Build.label
    condition (some onTrue) (some after)
    Build.place onTrue
    body onTrue after

/- A choice between two statements. -/
def lowerIfElse
    (condition : Choice)
    (body other : Between) : Between :=
  fun _ after => do
    let onTrue ← Build.label
    let onFalse ← Build.label
    condition (some onTrue) (some onFalse)
    Build.place onTrue
    body onTrue after
    Build.jump after
    Build.place onFalse
    other onFalse after

/- A loop that tests first. -/
def lowerWhile
    (condition : Choice)
    (body : Between) : Between :=
  fun before after => do
    let start ← Build.label
    condition (some start) (some after)
    Build.place start
    Build.insideLoop after (body start before)
    Build.jump before

/- A loop that tests last. -/
def lowerDoWhile
    (body : Between)
    (condition : Choice) : Between :=
  fun before after => do
    let test ← Build.label
    Build.insideLoop after (body before test)
    Build.place test
    condition (some before) (some after)

/- A value stored in a place. -/
def lowerAssign
    (target : Place)
    (value : Expr) : Build Unit := do
  let stored ← value.convert target.ty
  let address ← target.address
  Build.append (.store stored address)

/- A value handed back. -/
def lowerReturn
    (t : Ty) :
    Option Expr → Build Unit
| none => Build.append (.ret none)
| some value => do
    let returned ← value.convert t
    Build.append (.ret (some returned))

/- A jump out of the innermost loop. -/
def lowerBreak (line : Nat) : Build Unit := do
  match (← get).loopExits with
  | exit :: _ => Build.jump exit
  | [] => throw ⟨.misplacedBreak, line⟩

mutual

/- Write a statement between two labels. -/
def lower : Stmt → Between
| .empty _ => fun _ _ => return
| .sequence head tail =>
    follow head.lower head.needsAfter (lowerTail tail)
| .ifThen condition body _ =>
    lowerIf condition.branches body.lower
| .ifElse condition body other _ =>
    lowerIfElse condition.branches body.lower other.lower
| .whileLoop condition body _ =>
    lowerWhile condition.branches body.lower
| .doWhile body condition _ =>
    lowerDoWhile body.lower condition.branches
| .assign target value _ => fun _ _ =>
    lowerAssign target value
| .ret value t _ => fun _ _ => lowerReturn t value
| .breakLoop line => fun _ _ => lowerBreak line
| .evaluate call _ => fun _ _ => do
    let _ ← call.reduce

/- The statements behind the head of a sequence. -/
def lowerTail : List Stmt → Option (Bool × Between)
| [] => none
| st :: rest =>
    some (st.needsBefore,
      follow st.lower st.needsAfter (lowerTail rest))

end

end Stmt

end Bracketry
