import Bracketry.Expr

/-
  This file defines statements and whole functions.
-/

namespace Bracketry

/-
  A statement.  A declaration is an assignment of the
  initial value, and a sequence has at least one statement.
-/
inductive Stmt where
| empty (line : Nat)
| sequence (head : Stmt) (tail : List Stmt)
| ifThen (condition : Expr) (body : Stmt) (line : Nat)
| ifElse (condition : Expr) (body other : Stmt) (line : Nat)
| whileLoop (condition : Expr) (body : Stmt) (line : Nat)
| doWhile (body : Stmt) (condition : Expr) (line : Nat)
| assign (target : Place) (value : Expr) (line : Nat)
| ret (value : Option Expr) (ty : Ty) (line : Nat)
| breakLoop (line : Nat)
| evaluate (call : Expr) (line : Nat)

namespace Stmt

/- The line of a statement; a sequence has its head's. -/
def line : Stmt → Nat
| .empty n => n
| .sequence head _ => head.line
| .ifThen _ _ n => n
| .ifElse _ _ _ n => n
| .whileLoop _ _ n => n
| .doWhile _ _ n => n
| .assign _ _ n => n
| .ret _ _ n => n
| .breakLoop n => n
| .evaluate _ n => n

/- Statements in order, or nothing at a line. -/
def ofList
    (statements : List Stmt)
    (line : Nat) : Stmt :=
  match statements with
  | [] => .empty line
  | head :: tail => .sequence head tail

/- Likeness of the values of two returns. -/
def valuesAlike :
    Option Expr → Option Expr → Bool
| none, none => true
| some a, some b => a.alike b
| _, _ => false

mutual

/- Likeness of statements, with types and lines. -/
def alike : Stmt → Stmt → Bool
| .empty m, .empty n => decide (m = n)
| .sequence a as, .sequence b bs =>
    a.alike b && allAlike as bs
| .ifThen c a m, .ifThen d b n =>
    c.alike d && a.alike b && decide (m = n)
| .ifElse c a x m, .ifElse d b y n =>
    c.alike d && a.alike b && x.alike y && decide (m = n)
| .whileLoop c a m, .whileLoop d b n =>
    c.alike d && a.alike b && decide (m = n)
| .doWhile a c m, .doWhile b d n =>
    a.alike b && c.alike d && decide (m = n)
| .assign p a m, .assign q b n =>
    p.alike q && a.alike b && decide (m = n)
| .ret a t m, .ret b u n =>
    valuesAlike a b && decide (t = u) && decide (m = n)
| .breakLoop m, .breakLoop n => decide (m = n)
| .evaluate a m, .evaluate b n =>
    a.alike b && decide (m = n)
| _, _ => false

/- Likeness of statements in order. -/
def allAlike : List Stmt → List Stmt → Bool
| [], [] => true
| a :: as, b :: bs => a.alike b && allAlike as bs
| _, _ => false

end

end Stmt

/- A header with its body. -/
structure FunctionDef where
  signature : Prototype
  body : Stmt
  line : Nat

end Bracketry
