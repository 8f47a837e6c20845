import Bracketry.Code.Builder
import Bracketry.Expr

/-
  This file writes the code of expressions.

  An expression can be used as an operand of its own type,
  as an operand of another type, and as a choice between two
  labels.  Each node is lowered to those three steps at
  once, from those of its parts.  Where a label of a choice
  is missing, the caller goes on writing the code for that
  outcome right behind the choice.

  A literal is converted before the program runs: a
  character is widened without its sign, an integer loses
  its high bits, and a float its fraction.
-/

namespace Bracketry

/- The signed number that low bits stand for. -/
def wrap
    (bits : Nat)
    (value : Int) : Int :=
  Int.bmod value (Nat.pow 2 bits)

/- A literal as it is seen in a wider type. -/
def widened
    (value : Int)
    (source : Ty) : Int :=
  if source = .char then value % 256 else value

namespace Value

/- An integer literal, as a constant of another type. -/
def ofInt?
    (value : Int)
    (source target : Ty) : Option Value :=
  match target with
  | .float =>
      some (.float (.ofInt (widened value source)) target)
  | .int =>
      some (.int (wrap 32 (widened value source)) target)
  | .char => some (.int (wrap 8 value) target)
  | _ => none

/- A float literal, as a constant of another type. -/
def ofFloat?
    (value : Double)
    (target : Ty) : Option Value :=
  match target with
  | .float => some (.float value target)
  | .int => some (.int value.toInt32 target)
  | .char => some (.int (wrap 8 value.toInt32) target)
  | _ => none

end Value

/- The conversion between two types, if there is one. -/
def Conversion.between?
    (source target : Ty) : Option Conversion :=
  if target.IsFloating ∧ source.IsIntegral then
    some .intToFloat
  else if target.IsIntegral ∧ source.IsFloating then
    some .floatToInt
  else if target.IsIntegral ∧ source.IsIntegral then
    if source.apparentSize < target.apparentSize then
      some .widen
    else
      some .narrow
  else
    none

/- Convert an operand by at most one instruction. -/
def Build.convertValue
    (value : Value)
    (target : Ty)
    (line : Nat) : Build Value :=
  if value.ty = target then
    return value
  else
    match Conversion.between? value.ty target with
    | some how =>
        define target fun dest =>
            .convert dest how value target
    | none => throw ⟨.noConversion value.ty target, line⟩

------------------------------------------------------------
-- Uses of an Expression
------------------------------------------------------------

/- A step of writing that leaves for one of two labels. -/
abbrev Choice :=
  Option Label → Option Label → Build Unit

/- The three uses of an expression. -/
structure Lowering where
  reduce : Build Value
  convert : Ty → Build Value
  branches : Choice

namespace Lowering

/- An expression that is converted as a whole. -/
def ofConvert
    (reduce : Build Value)
    (convert : Ty → Build Value) : Lowering where
  reduce := reduce
  convert := convert
  branches := fun onTrue onFalse => do
    let condition ← convert .bool
    Build.branch condition onTrue onFalse

/- An expression that is an operand first. -/
def ofReduce
    (reduce : Build Value)
    (line : Nat) : Lowering :=
  ofConvert reduce fun target => do
    let value ← reduce
    Build.convertValue value target line

/- A literal, which is converted without any instruction. -/
def ofLiteral
    (value : Value)
    (fold : Ty → Option Value)
    (line : Nat) : Lowering :=
  ofConvert (return value) fun target =>
    match fold target with
    | some folded => return folded
    | none => throw ⟨.noConversion value.ty target, line⟩

/- An operand first, which has a choice as well. -/
def withBranches
    (reduce : Build Value)
    (branches : Choice)
    (line : Nat) : Lowering :=
  { ofReduce reduce line with branches := branches }

/-
  A choice as an operand: both outcomes come together again,
  and the one taken tells the value.
-/
def merge (branches : Choice) : Build Value := do
  let onTrue ← Build.label
  let onFalse ← Build.label
  let done ← Build.label
  branches (some onTrue) (some onFalse)
  Build.place onTrue
  Build.jump done
  Build.place onFalse
  Build.jump done
  Build.place done
  Build.define .bool fun dest => .merge dest onTrue onFalse

/- The choice of a literal, which is no choice. -/
def settled (value : Bool) : Choice :=
  fun onTrue onFalse =>
    match if value then onTrue else onFalse with
    | some label => Build.jump label
    | none => return

/-
  Both must be true: the second is only decided when the
  first is true.
-/
def both (left right : Choice) : Choice :=
  fun onTrue onFalse =>
    match onFalse with
    | some exit => do
        left none (some exit)
        right onTrue onFalse
    | none => do
        let exit ← Build.label
        left none (some exit)
        right onTrue onFalse
        Build.place exit

/-
  One must be true: the second is only decided when the
  first is false.
-/
def either (left right : Choice) : Choice :=
  fun onTrue onFalse =>
    match onTrue with
    | some exit => do
        left (some exit) none
        right onTrue onFalse
    | none => do
        let exit ← Build.label
        left (some exit) none
        right onTrue onFalse
        Build.place exit

/- The type in which two operands are compared. -/
def comparedAs
    (left right : Ty)
    (line : Nat) : Except Fault Ty :=
  if left = .bool ∧ right = .bool then
    .ok .bool
  else
    match left.promote right with
    | some t => .ok t
    | none =>
        .error (.ofTypes (.notComparable left right) line)

/- The comparison of two operands in their common type. -/
def compare
    (op : Comparison)
    (left right : Lowering)
    (common : Except Fault Ty) : Build Value :=
  match common with
  | .error fault => throw fault
  | .ok t => do
      let a ← left.convert t
      let b ← right.convert t
      Build.define .bool fun dest => .compare dest op t a b

/- Each argument in the type of its parameter. -/
def convertEach :
    List Lowering → List Ty → Build (List Value)
| arg :: args, param :: params => do
    let value ← arg.convert param
    let values ← convertEach args params
    return value :: values
| _, _ => return []

/- All elements in one type. -/
def convertAll
    (t : Ty) :
    List Lowering → Build (List Value)
| [] => return []
| element :: rest => do
    let value ← element.convert t
    let values ← convertAll t rest
    return value :: values

/- An array literal, converted element by element. -/
def array
    (elements : List Lowering)
    (source : Ty)
    (line : Nat)
    (target : Ty) : Build Value :=
  match target.element? with
  | none => throw ⟨.noConversion source target, line⟩
  | some t => do
      let values ← convertAll t elements
      return .array values target

/- A call, which may have no result. -/
def call
    (callee : Identifier)
    (args : List Lowering)
    (params : List Ty)
    (t : Ty) : Build Value := do
  let values ← convertEach args params
  if t = .void then
    Build.append (.call none t callee.storage values)
    return .void t
  else
    Build.define t fun dest =>
      .call (some dest) t callee.storage values

end Lowering

mutual

/- The address of a place; a variable gets its slot here. -/
def Place.address : Place → Build Value
| .var x => do
    Build.allocate x.storage x.ty
    return .named x.storage (.pointer x.ty)
| .element parent index t => do
    let base ← parent.address
    let position ← index.lower.convert .int
    Build.define (.pointer t) fun dest =>
      .element dest parent.ty base position t
| .member parent position _ t => do
    let base ← parent.address
    Build.define (.pointer t) fun dest =>
      .element dest parent.ty base (.int position .int) t

/- The three uses of an expression. -/
def Expr.lower : Expr → Lowering
| .int value t line =>
    .ofLiteral (.int value t) (Value.ofInt? value t) line
| .float value line =>
    .ofLiteral (.float value .float) (Value.ofFloat? value)
      line
| .boolean value line =>
    .withBranches (return .bool value .bool)
      (Lowering.settled value) line
| .zero t line =>
    .ofReduce (return .zero t) line
| .array elements t line =>
    let convert :=
      Lowering.array (Expr.lowerAll elements) t line
    .ofConvert (convert t) convert
| .read place line =>
    let reduce := do
      let address ← place.address
      Build.define place.ty fun dest =>
        .load dest place.ty address
    .ofReduce reduce line
| .arithmetic op left right t line =>
    let reduce := do
      let a ← left.lower.convert t
      let b ← right.lower.convert t
      Build.define t fun dest => .arithmetic dest op t a b
    .ofReduce reduce line
| .negate operand t line =>
    let reduce := do
      let value ← operand.lower.reduce
      Build.define t fun dest => .negate dest t value
    .ofReduce reduce line
| .call callee _ args params t line =>
    .ofReduce (Lowering.call callee (Expr.lowerAll args)
      params t) line
| .compare op left right line =>
    let common := Lowering.comparedAs left.ty right.ty line
    let reduce :=
      Lowering.compare op left.lower right.lower common
    let branches := fun onTrue onFalse => do
      let condition ← reduce
      Build.branch condition onTrue onFalse
    .withBranches reduce branches line
| .and left right line =>
    let branches :=
      Lowering.both left.lower.branches right.lower.branches
    .withBranches (Lowering.merge branches) branches line
| .or left right line =>
    let branches := Lowering.either left.lower.branches
      right.lower.branches
    .withBranches (Lowering.merge branches) branches line
| .not operand line =>
    let branches := fun onTrue onFalse =>
      operand.lower.branches onFalse onTrue
    .withBranches (Lowering.merge branches) branches line

/- The uses of several expressions. -/
def Expr.lowerAll : List Expr → List Lowering
| [] => []
| e :: rest => e.lower :: Expr.lowerAll rest

end

namespace Expr

/- Write an expression as an operand of its own type. -/
def reduce (e : Expr) : Build Value :=
  e.lower.reduce

/- Write an expression as an operand of a given type. -/
def convert
    (e : Expr)
    (target : Ty) : Build Value :=
  e.lower.convert target

/- Write an expression as a choice between two labels. -/
def branches (e : Expr) : Choice :=
  e.lower.branches

end Expr

end Bracketry
