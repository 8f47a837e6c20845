import Bracketry.Fault
import Bracketry.Identifier

/-
  This file defines typed expressions and the places that
  values are stored in.

  Every node knows its type and its line.  Logical nodes are
  always of type bool, and reading a place has the type of
  the place, so those carry no type of their own.
-/

namespace Bracketry

mutual

/- Where a value is stored: a variable or a part of one. -/
inductive Place where
| var (identifier : Identifier)
| element (parent : Place) (index : Expr) (ty : Ty)
| member (parent : Place) (position : Nat) (name : String)
    (ty : Ty)

/- An expression with the type and line of each node. -/
inductive Expr where
| int (value : Int) (ty : Ty) (line : Nat)
| float (value : Double) (line : Nat)
| boolean (value : Bool) (line : Nat)
| array (elements : List Expr) (ty : Ty) (line : Nat)
| zero (ty : Ty) (line : Nat)
| read (place : Place) (line : Nat)
| arithmetic (op : Arithmetic) (left right : Expr) (ty : Ty)
    (line : Nat)
| negate (operand : Expr) (ty : Ty) (line : Nat)
| call (callee : Identifier) (prototype : Nat)
    (args : List Expr) (params : List Ty) (ty : Ty)
      (line : Nat)
| compare (op : Comparison) (left right : Expr) (line : Nat)
| and (left right : Expr) (line : Nat)
| or (left right : Expr) (line : Nat)
| not (operand : Expr) (line : Nat)

end

namespace Place

/- The type of the value stored. -/
def ty : Place → Ty
| .var x => x.ty
| .element _ _ t => t
| .member _ _ _ t => t

/- The variable that the place is a part of. -/
def root : Place → Identifier
| .var x => x
| .element parent _ _ => parent.root
| .member parent _ _ _ => parent.root

end Place

namespace Expr

/- The type of the value. -/
def ty : Expr → Ty
| .int _ t _ => t
| .float _ _ => .float
| .boolean _ _ => .bool
| .array _ t _ => t
| .zero t _ => t
| .read p _ => p.ty
| .arithmetic _ _ _ t _ => t
| .negate _ t _ => t
| .call _ _ _ _ t _ => t
| .compare _ _ _ _ => .bool
| .and _ _ _ => .bool
| .or _ _ _ => .bool
| .not _ _ => .bool

/- The line of the node. -/
def line : Expr → Nat
| .int _ _ n => n
| .float _ n => n
| .boolean _ n => n
| .array _ _ n => n
| .zero _ n => n
| .read _ n => n
| .arithmetic _ _ _ _ n => n
| .negate _ _ n => n
| .call _ _ _ _ _ n => n
| .compare _ _ _ n => n
| .and _ _ n => n
| .or _ _ n => n
| .not _ n => n

/- Nodes that decide between true and false by branching. -/
def IsLogical : Expr → Prop
| .boolean _ _ => True
| .compare _ _ _ _ => True
| .and _ _ _ => True
| .or _ _ _ => True
| .not _ _ => True
| _ => False

instance (e : Expr) : Decidable e.IsLogical := by
  unfold IsLogical
  split <;> infer_instance

/- Expressions that may stand as a condition. -/
def IsCondition (e : Expr) : Prop :=
  e.IsLogical ∨ e.ty = .bool

instance (e : Expr) : Decidable e.IsCondition := by
  unfold IsCondition
  infer_instance

/- Calls. -/
def IsCall : Expr → Prop
| .call _ _ _ _ _ _ => True
| _ => False

instance (e : Expr) : Decidable e.IsCall := by
  unfold IsCall
  split <;> infer_instance

/- Array literals. -/
def IsArrayLiteral : Expr → Prop
| .array _ _ _ => True
| _ => False

instance (e : Expr) : Decidable e.IsArrayLiteral := by
  unfold IsArrayLiteral
  split <;> infer_instance

mutual

/- Whether an expression is a literal all the way down. -/
def isConstant : Expr → Bool
| .int _ _ _ => true
| .float _ _ => true
| .boolean _ _ => true
| .zero _ _ => true
| .array elements _ _ => areConstant elements
| _ => false

/- Whether all elements are literals. -/
def areConstant : List Expr → Bool
| [] => true
| e :: rest => e.isConstant && areConstant rest

end

/- The value of a variable that has no initializer. -/
def initial
    (t : Ty)
    (line : Nat) : Except Fault Expr :=
  match t with
  | .void => .error (.ofTypes .voidDefault line)
  | .bool => .ok (.boolean false line)
  | .char => .ok (.int 0 .char line)
  | .int => .ok (.int 0 .int line)
  | .float => .ok (.float .zero line)
  | _ => .ok (.zero t line)

end Expr

mutual

/-
  Likeness of places: variables by name and binding, parts
  by position and type.
-/
def Place.alike : Place → Place → Bool
| .var x, .var y => decide (x.Same y)
| .element p i t, .element q j u =>
    p.alike q && i.alike j && decide (t = u)
| .member p i x t, .member q j y u =>
    p.alike q && decide (i = j) && decide (x = y) &&
      decide (t = u)
| _, _ => false

/-
  Likeness of expressions: node by node, with types and
  lines, numbers compared as numbers.
-/
def Expr.alike : Expr → Expr → Bool
| .int x t m, .int y u n =>
    decide (x = y) && decide (t = u) && decide (m = n)
| .float x m, .float y n =>
    x.numEq y && decide (m = n)
| .boolean x m, .boolean y n =>
    decide (x = y) && decide (m = n)
| .array xs t m, .array ys u n =>
    Expr.allAlike xs ys && decide (t = u) && decide (m = n)
| .zero t m, .zero u n =>
    decide (t = u) && decide (m = n)
| .read p m, .read q n =>
    p.alike q && decide (p.ty = q.ty) && decide (m = n)
| .arithmetic f a b t m, .arithmetic g c d u n =>
    decide (f = g) && a.alike c && b.alike d &&
      decide (t = u) && decide (m = n)
| .negate a t m, .negate b u n =>
    a.alike b && decide (t = u) && decide (m = n)
| .call f i xs ts t m, .call g j ys us u n =>
    decide (f.Same g) && decide (i = j) &&
      Expr.allAlike xs ys && decide (ts = us) &&
      decide (t = u) && decide (m = n)
| .compare f a b m, .compare g c d n =>
    decide (f = g) && a.alike c && b.alike d &&
      decide (m = n)
| .and a b m, .and c d n =>
    a.alike c && b.alike d && decide (m = n)
| .or a b m, .or c d n =>
    a.alike c && b.alike d && decide (m = n)
| .not a m, .not b n =>
    a.alike b && decide (m = n)
| _, _ => false

/- Likeness of expressions in order. -/
def Expr.allAlike : List Expr → List Expr → Bool
| [], [] => true
| a :: as, b :: bs => a.alike b && Expr.allAlike as bs
| _, _ => false

end

end Bracketry
