import Bracketry.Proofs.Expr.Typing
import Bracketry.Stmt.Lowering

/-
  This file defines raw trees, whose nodes carry any types.

  What is written for a node depends on the type it carries,
  whether its value has that type or not.  The trees of the
  language are the raw trees that carry the types of their
  values: the same is written for both, and both mention the
  same variables and take as much.

  Main declarations:
    * `RawExpr.lower`
    * `RawStmt.lower`
    * `Expr.raw_eq`
    * `Stmt.raw_eq`
-/

namespace Bracketry

------------------------------------------------------------
-- Expressions
------------------------------------------------------------

mutual

/- A place with raw indices. -/
inductive RawPlace where
| var (identifier : Identifier)
| element (parent : RawPlace) (index : RawExpr) (ty : Ty)
| member (parent : RawPlace) (position : Nat)
    (name : String) (ty : Ty)

/- An expression, each node of which carries any type. -/
inductive RawExpr where
| int (value : Int) (ty : Ty) (line : Nat)
| float (value : Double) (ty : Ty) (line : Nat)
| boolean (value : Bool) (ty : Ty) (line : Nat)
| array (elements : List RawExpr) (ty : Ty) (line : Nat)
| zero (ty : Ty) (line : Nat)
| read (place : RawPlace) (ty : Ty) (line : Nat)
| arithmetic (op : Arithmetic) (left right : RawExpr)
    (ty : Ty) (line : Nat)
| negate (operand : RawExpr) (ty : Ty) (line : Nat)
| call (callee : Identifier) (prototype : Nat)
    (args : List RawExpr) (params : List Ty) (ty : Ty)
    (line : Nat)
| compare (op : Comparison) (left right : RawExpr) (ty : Ty)
    (line : Nat)
| and (left right : RawExpr) (ty : Ty) (line : Nat)
| or (left right : RawExpr) (ty : Ty) (line : Nat)
| not (operand : RawExpr) (ty : Ty) (line : Nat)

end

/- The type that a place carries. -/
def RawPlace.ty : RawPlace → Ty
| .var x => x.ty
| .element _ _ t => t
| .member _ _ _ t => t

/- The type that a node carries. -/
def RawExpr.ty : RawExpr → Ty
| .int _ t _ => t
| .float _ t _ => t
| .boolean _ t _ => t
| .array _ t _ => t
| .zero t _ => t
| .read _ t _ => t
| .arithmetic _ _ _ t _ => t
| .negate _ t _ => t
| .call _ _ _ _ t _ => t
| .compare _ _ _ t _ => t
| .and _ _ t _ => t
| .or _ _ t _ => t
| .not _ t _ => t

mutual

/- The address of a place. -/
@[simp] def RawPlace.address : RawPlace → Build Value
| .var x => do
    Build.allocate x.storage x.ty
    return .named x.storage (.pointer x.ty)
| .element parent index t => do
    let base ← parent.address
    let position ← index.lower.convert .int
    Build.define (.pointer t) fun dest =>
      .element dest parent.ty base position t
| .member parent position _ t => do
    let base ← parent.address
    Build.define (.pointer t) fun dest =>
      .element dest parent.ty base (.int position .int) t

/- The three uses of an expression. -/
@[simp] def RawExpr.lower : RawExpr → Lowering
| .int value t line =>
    .ofLiteral (.int value t) (Value.ofInt? value t) line
| .float value t line =>
    .ofLiteral (.float value t) (Value.ofFloat? value) line
| .boolean value t line =>
    .withBranches (return .bool value t)
      (Lowering.settled value) line
| .zero t line =>
    .ofReduce (return .zero t) line
| .array elements t line =>
    let convert :=
      Lowering.array (RawExpr.lowerAll elements) t line
    .ofConvert (convert t) convert
| .read place t line =>
    let reduce := do
      let address ← place.address
      Build.define t fun dest => .load dest t address
    .ofReduce reduce line
| .arithmetic op left right t line =>
    let reduce := do
      let a ← left.lower.convert t
      let b ← right.lower.convert t
      Build.define t fun dest => .arithmetic dest op t a b
    .ofReduce reduce line
| .negate operand t line =>
    let reduce := do
      let value ← operand.lower.reduce
      Build.define t fun dest => .negate dest t value
    .ofReduce reduce line
| .call callee _ args params t line =>
    .ofReduce
      (Lowering.call callee (RawExpr.lowerAll args)
        params t) line
| .compare op left right _ line =>
    let common := Lowering.comparedAs left.ty right.ty line
    let reduce :=
      Lowering.compare op left.lower right.lower common
    let branches := fun onTrue onFalse => do
      let condition ← reduce
      Build.branch condition onTrue onFalse
    .withBranches reduce branches line
| .and left right _ line =>
    let branches :=
      Lowering.both left.lower.branches right.lower.branches
    .withBranches (Lowering.merge branches) branches line
| .or left right _ line =>
    let branches :=
      Lowering.either left.lower.branches
        right.lower.branches
    .withBranches (Lowering.merge branches) branches line
| .not operand _ line =>
    let branches := fun onTrue onFalse =>
      operand.lower.branches onFalse onTrue
    .withBranches (Lowering.merge branches) branches line

/- The uses of several expressions. -/
@[simp] def RawExpr.lowerAll : List RawExpr → List Lowering
| [] => []
| e :: rest => e.lower :: RawExpr.lowerAll rest

end

mutual

/- The variables that a place is reached by. -/
@[simp] def RawPlace.variables : RawPlace → List Identifier
| .var x => [x]
| .element parent index _ =>
    parent.variables ++ index.variables
| .member parent _ _ _ => parent.variables

/- The variables that an expression reads. -/
@[simp] def RawExpr.variables : RawExpr → List Identifier
| .array elements _ _ => RawExpr.allVariables elements
| .read place _ _ => place.variables
| .arithmetic _ left right _ _ =>
    left.variables ++ right.variables
| .negate operand _ _ => operand.variables
| .call _ _ args _ _ _ => RawExpr.allVariables args
| .compare _ left right _ _ =>
    left.variables ++ right.variables
| .and left right _ _ => left.variables ++ right.variables
| .or left right _ _ => left.variables ++ right.variables
| .not operand _ _ => operand.variables
| _ => []

/- The variables that several expressions read. -/
@[simp] def RawExpr.allVariables : List RawExpr →
    List Identifier
| [] => []
| e :: rest => e.variables ++ RawExpr.allVariables rest

end

mutual

/- What the address of a place takes at most. -/
@[simp] def RawPlace.cost : RawPlace → Nat
| .var _ => 1
| .element parent index _ => parent.cost + index.cost + 1
| .member parent _ _ _ => parent.cost + 1

/- What an operand takes at most. -/
@[simp] def RawExpr.cost : RawExpr → Nat
| .int _ _ _ => 0
| .float _ _ _ => 0
| .boolean _ _ _ => 1
| .zero _ _ => 1
| .array elements _ _ => RawExpr.allCost elements
| .read place _ _ => place.cost + 2
| .arithmetic _ left right _ _ => left.cost + right.cost + 2
| .negate operand _ _ => operand.cost + 2
| .call _ _ args _ _ _ => RawExpr.allCost args + 2
| .compare _ left right _ _ => left.cost + right.cost + 2
| .and left right _ _ => left.cost + right.cost + 10
| .or left right _ _ => left.cost + right.cost + 10
| .not operand _ _ => operand.cost + 7

/- What several operands take at most. -/
@[simp] def RawExpr.allCost : List RawExpr → Nat
| [] => 0
| e :: rest => e.cost + RawExpr.allCost rest

end

/- A statement of raw parts, in which sequences may nest. -/
inductive RawStmt where
| empty (line : Nat)
| single (head : RawStmt)
| sequence (head tail : RawStmt)
| ifThen (condition : RawExpr) (body : RawStmt) (line : Nat)
| ifElse (condition : RawExpr) (body other : RawStmt)
    (line : Nat)
| whileLoop (condition : RawExpr) (body : RawStmt)
    (line : Nat)
| doWhile (body : RawStmt) (condition : RawExpr)
    (line : Nat)
| assign (target : RawPlace) (value : RawExpr) (line : Nat)
| ret (value : Option RawExpr) (ty : Ty) (line : Nat)
| breakLoop (line : Nat)
| evaluate (call : RawExpr) (line : Nat)

namespace RawStmt

/- Whether control comes back to the start. -/
@[simp] def needsBefore : RawStmt → Bool
| .single head => head.needsBefore
| .sequence head _ => head.needsBefore
| .whileLoop _ _ _ => true
| .doWhile _ _ _ => true
| _ => false

/- Whether control leaves for the point behind. -/
@[simp] def needsAfter : RawStmt → Bool
| .single head => head.needsAfter
| .sequence _ tail => tail.needsAfter
| .ifThen _ _ _ => true
| .ifElse _ _ _ _ => true
| .whileLoop _ _ _ => true
| .doWhile _ _ _ => true
| _ => false

/- A value stored in a place. -/
def lowerAssign
    (target : RawPlace)
    (value : RawExpr) : Build Unit := do
  let stored ← value.lower.convert target.ty
  let address ← target.address
  Build.append (.store stored address)

/- A value handed back. -/
def lowerReturn
    (t : Ty) :
    Option RawExpr → Build Unit
| none => Build.append (.ret none)
| some value => do
    let returned ← value.lower.convert t
    Build.append (.ret (some returned))

/- Write a statement between two labels. -/
@[simp] def lower : RawStmt → Stmt.Between
| .empty _ => fun _ _ => return
| .single head => head.lower
| .sequence head tail =>
    Stmt.follow head.lower head.needsAfter
      (some (tail.needsBefore, tail.lower))
| .ifThen condition body _ =>
    Stmt.lowerIf condition.lower.branches body.lower
| .ifElse condition body other _ =>
    Stmt.lowerIfElse condition.lower.branches body.lower
      other.lower
| .whileLoop condition body _ =>
    Stmt.lowerWhile condition.lower.branches body.lower
| .doWhile body condition _ =>
    Stmt.lowerDoWhile body.lower condition.lower.branches
| .assign target value _ => fun _ _ =>
    lowerAssign target value
| .ret value t _ => fun _ _ => lowerReturn t value
| .breakLoop line => fun _ _ => Stmt.lowerBreak line
| .evaluate call _ => fun _ _ => do
    let _ ← call.lower.reduce

/- What a statement takes at most. -/
@[simp] def cost : RawStmt → Nat
| .empty _ => 0
| .single head => head.cost
| .sequence head tail => head.cost + (tail.cost + 1)
| .ifThen condition body _ => condition.cost + body.cost + 3
| .ifElse condition body other _ =>
    condition.cost + body.cost + other.cost + 4
| .whileLoop condition body _ =>
    condition.cost + body.cost + 3
| .doWhile body condition _ =>
    body.cost + condition.cost + 3
| .assign target value _ => value.cost + target.cost + 1
| .ret none _ _ => 1
| .ret (some value) _ _ => value.cost + 1
| .breakLoop _ => 0
| .evaluate call _ => call.cost

end RawStmt

/- The variables that a statement reads or stores in. -/
@[simp] def RawStmt.variables : RawStmt → List Identifier
| .single head => head.variables
| .sequence head tail => head.variables ++ tail.variables
| .ifThen condition body _ =>
    condition.variables ++ body.variables
| .ifElse condition body other _ =>
    condition.variables ++ body.variables ++ other.variables
| .whileLoop condition body _ =>
    condition.variables ++ body.variables
| .doWhile body condition _ =>
    body.variables ++ condition.variables
| .assign target value _ =>
    target.variables ++ value.variables
| .ret (some value) _ _ => value.variables
| .evaluate call _ => call.variables
| _ => []

------------------------------------------------------------
-- Trees of the Language
------------------------------------------------------------

mutual

/- A place as a raw one. -/
@[simp] def Place.raw : Place → RawPlace
| .var x => .var x
| .element parent index t => .element parent.raw index.raw t
| .member parent position name t =>
    .member parent.raw position name t

/- An expression that carries the types of its values. -/
@[simp] def Expr.raw : Expr → RawExpr
| .int value t line => .int value t line
| .float value line => .float value .float line
| .boolean value line => .boolean value .bool line
| .array elements t line =>
    .array (Expr.rawAll elements) t line
| .zero t line => .zero t line
| .read place line => .read place.raw place.ty line
| .arithmetic op left right t line =>
    .arithmetic op left.raw right.raw t line
| .negate operand t line => .negate operand.raw t line
| .call callee prototype args params t line =>
    .call callee prototype (Expr.rawAll args) params t line
| .compare op left right line =>
    .compare op left.raw right.raw .bool line
| .and left right line => .and left.raw right.raw .bool line
| .or left right line => .or left.raw right.raw .bool line
| .not operand line => .not operand.raw .bool line

/- Several expressions as raw ones. -/
@[simp] def Expr.rawAll : List Expr → List RawExpr
| [] => []
| e :: rest => e.raw :: Expr.rawAll rest

end

mutual

/- A statement as a raw one. -/
@[simp] def Stmt.raw : Stmt → RawStmt
| .empty line => .empty line
| .sequence head tail => Stmt.rawAll head.raw tail
| .ifThen condition body line =>
    .ifThen condition.raw body.raw line
| .ifElse condition body other line =>
    .ifElse condition.raw body.raw other.raw line
| .whileLoop condition body line =>
    .whileLoop condition.raw body.raw line
| .doWhile body condition line =>
    .doWhile body.raw condition.raw line
| .assign target value line =>
    .assign target.raw value.raw line
| .ret value t line => .ret (value.map Expr.raw) t line
| .breakLoop line => .breakLoop line
| .evaluate call line => .evaluate call.raw line

/- A statement with statements behind it. -/
@[simp] def Stmt.rawAll : RawStmt → List Stmt → RawStmt
| head, [] => .single head
| head, st :: rest =>
    .sequence head (Stmt.rawAll st.raw rest)

end

mutual

/- What the address of a place takes at most. -/
@[simp] def Place.cost : Place → Nat
| .var _ => 1
| .element parent index _ => parent.cost + index.cost + 1
| .member parent _ _ _ => parent.cost + 1

/- What an operand takes at most. -/
@[simp] def Expr.cost : Expr → Nat
| .int _ _ _ => 0
| .float _ _ => 0
| .boolean _ _ => 1
| .zero _ _ => 1
| .array elements _ _ => Expr.allCost elements
| .read place _ => place.cost + 2
| .arithmetic _ left right _ _ => left.cost + right.cost + 2
| .negate operand _ _ => operand.cost + 2
| .call _ _ args _ _ _ => Expr.allCost args + 2
| .compare _ left right _ => left.cost + right.cost + 2
| .and left right _ => left.cost + right.cost + 10
| .or left right _ => left.cost + right.cost + 10
| .not operand _ => operand.cost + 7

/- What several operands take at most. -/
@[simp] def Expr.allCost : List Expr → Nat
| [] => 0
| e :: rest => e.cost + Expr.allCost rest

end

mutual

/- The variables that a statement reads or stores in. -/
def Stmt.variables : Stmt → List Identifier
| .sequence head tail =>
    head.variables ++ Stmt.allVariables tail
| .ifThen condition body _ =>
    condition.variables ++ body.variables
| .ifElse condition body other _ =>
    condition.variables ++ body.variables ++ other.variables
| .whileLoop condition body _ =>
    condition.variables ++ body.variables
| .doWhile body condition _ =>
    body.variables ++ condition.variables
| .assign target value _ =>
    target.variables ++ value.variables
| .ret (some value) _ _ => value.variables
| .evaluate call _ => call.variables
| _ => []

/- The variables of several statements. -/
def Stmt.allVariables : List Stmt → List Identifier
| [] => []
| st :: rest => st.variables ++ Stmt.allVariables rest

end

namespace Stmt

/- What a value handed back takes at most. -/
def valueCost : Option Expr → Nat
| none => 0
| some value => value.cost

mutual

/- What a statement takes at most. -/
@[simp] def cost : Stmt → Nat
| .empty _ => 0
| .sequence head tail => head.cost + allCost tail
| .ifThen condition body _ => condition.cost + body.cost + 3
| .ifElse condition body other _ =>
    condition.cost + body.cost + other.cost + 4
| .whileLoop condition body _ =>
    condition.cost + body.cost + 3
| .doWhile body condition _ =>
    body.cost + condition.cost + 3
| .assign target value _ => value.cost + target.cost + 1
| .ret value _ _ => valueCost value + 1
| .breakLoop _ => 0
| .evaluate call _ => call.cost

/- What statements take, each behind another one. -/
@[simp] def allCost : List Stmt → Nat
| [] => 0
| st :: rest => st.cost + allCost rest + 1

end

end Stmt

theorem Place.raw_ty
    (place : Place) :
    place.raw.ty = place.ty := by
  cases place <;> simp [RawPlace.ty, Place.ty]

theorem Expr.raw_ty
    (e : Expr) :
    e.raw.ty = e.ty := by
  cases e <;> simp [RawExpr.ty, Expr.ty]

mutual

/- A place is written as the raw one, at the same cost. -/
theorem Place.raw_eq :
    ∀ place : Place, place.raw.address = place.address ∧
      place.raw.variables = place.variables ∧
      place.raw.cost = place.cost
| .var x => by simp [Place.address, Place.variables]
| .element parent index t => by
    simp [Place.address, Place.variables, parent.raw_ty,
      Place.raw_eq parent, Expr.raw_eq index]
| .member parent position name t => by
    simp [Place.address, Place.variables, parent.raw_ty,
      Place.raw_eq parent]

/- So is an expression. -/
theorem Expr.raw_eq :
    ∀ e : Expr, e.raw.lower = e.lower ∧
      e.raw.variables = e.variables ∧ e.raw.cost = e.cost
| .int value t line => by simp [Expr.lower, Expr.variables]
| .float value line => by simp [Expr.lower, Expr.variables]
| .boolean value line => by
  simp [Expr.lower, Expr.variables]
| .zero t line => by simp [Expr.lower, Expr.variables]
| .array elements t line => by
    simp [Expr.lower, Expr.variables,
      Expr.rawAll_eq elements]
| .read place line => by
    simp [Expr.lower, Expr.variables, Place.raw_eq place]
| .arithmetic op left right t line => by
    simp [Expr.lower, Expr.variables, Expr.raw_eq left,
      Expr.raw_eq right]
| .negate operand t line => by
    simp [Expr.lower, Expr.variables, Expr.raw_eq operand]
| .call callee prototype args params t line => by
    simp [Expr.lower, Expr.variables, Expr.rawAll_eq args]
| .compare op left right line => by
    simp [Expr.lower, Expr.variables, Expr.raw_ty,
      Expr.raw_eq left, Expr.raw_eq right]
| .and left right line => by
    simp [Expr.lower, Expr.variables, Expr.raw_eq left,
      Expr.raw_eq right]
| .or left right line => by
    simp [Expr.lower, Expr.variables, Expr.raw_eq left,
      Expr.raw_eq right]
| .not operand line => by
    simp [Expr.lower, Expr.variables, Expr.raw_eq operand]

theorem Expr.rawAll_eq :
    ∀ es : List Expr,
      RawExpr.lowerAll (Expr.rawAll es) = Expr.lowerAll es ∧
        RawExpr.allVariables (Expr.rawAll es) =
          Expr.allVariables es ∧
        RawExpr.allCost (Expr.rawAll es) = Expr.allCost es
| [] => by simp [Expr.lowerAll, Expr.allVariables]
| e :: rest => by
    simp [Expr.lowerAll, Expr.allVariables, Expr.raw_eq e,
      Expr.rawAll_eq rest]

end

mutual

/- So is a statement, which needs the same labels. -/
theorem Stmt.raw_eq :
    ∀ st : Stmt, st.raw.lower = st.lower ∧
      st.raw.needsBefore = st.needsBefore ∧
      st.raw.needsAfter = st.needsAfter ∧
      st.raw.variables = st.variables ∧
        st.raw.cost = st.cost
| .empty line => by
    simp [lower, needsBefore, needsAfter, Stmt.variables]
| .sequence head tail => by
    simp [lower, needsBefore, needsAfter, Stmt.variables,
      Stmt.raw_eq head, Stmt.rawAll_eq tail]
| .ifThen condition body line => by
    simp [lower, needsBefore, needsAfter, Stmt.variables,
      Expr.branches, condition.raw_eq, Stmt.raw_eq body]
| .ifElse condition body other line => by
    simp [lower, needsBefore, needsAfter, Stmt.variables,
      Expr.branches, condition.raw_eq, Stmt.raw_eq body,
      Stmt.raw_eq other]
| .whileLoop condition body line => by
    simp [lower, needsBefore, needsAfter, Stmt.variables,
      Expr.branches, condition.raw_eq, Stmt.raw_eq body]
| .doWhile body condition line => by
    simp [lower, needsBefore, needsAfter, Stmt.variables,
      Expr.branches, condition.raw_eq, Stmt.raw_eq body]
| .assign target value line => by
    simp [lower, needsBefore, needsAfter, Stmt.variables,
      RawStmt.lowerAssign, lowerAssign, Expr.convert,
      target.raw_eq, target.raw_ty, value.raw_eq]
| .ret none t line => by
    simp [lower, needsBefore, needsAfter, Stmt.variables,
      RawStmt.lowerReturn, lowerReturn, valueCost]
| .ret (some value) t line => by
    simp [lower, needsBefore, needsAfter, Stmt.variables,
      RawStmt.lowerReturn, lowerReturn, valueCost,
        Expr.convert,
      value.raw_eq]
| .breakLoop line => by
    simp [lower, needsBefore, needsAfter, Stmt.variables]
| .evaluate call line => by
    simp [lower, needsBefore, needsAfter, Stmt.variables,
      Expr.reduce, call.raw_eq]

theorem Stmt.rawAll_eq :
    ∀ (tail : List Stmt) (head : RawStmt),
      (rawAll head tail).lower =
          follow head.lower head.needsAfter
            (lowerTail tail) ∧
        (rawAll head tail).needsBefore = head.needsBefore ∧
        (rawAll head tail).needsAfter =
          lastNeedsAfter head.needsAfter tail ∧
        (rawAll head tail).variables =
          head.variables ++ Stmt.allVariables tail ∧
        (rawAll head tail).cost = head.cost + allCost tail
| [], head => by
    simp [lowerTail, follow, lastNeedsAfter,
      Stmt.allVariables]
| st :: rest, head => by
    simp [lowerTail, lastNeedsAfter, Stmt.allVariables,
      Stmt.raw_eq st, Stmt.rawAll_eq rest st.raw]

end

end Bracketry
