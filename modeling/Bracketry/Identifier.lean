import Bracketry.Ty

/-
  This file defines the named things of a program:
  variables, parameters and functions, and the names of
  their storage in generated code.
-/

namespace Bracketry

/- How a name came to be bound. -/
inductive Binding where
| argument
| global
| block (function : String) (scope : Nat)
deriving DecidableEq, Repr

/- A name with its type, its binding and its line. -/
structure Identifier where
  name : String
  ty : Ty
  binding : Binding
  line : Nat
deriving DecidableEq, Repr

namespace Identifier

/-
  The name of the storage in generated code.  The number of
  the block keeps shadowing variables apart.
-/
def storage (x : Identifier) : String :=
  match x.binding with
  | .argument => "%" ++ x.name ++ ".arg"
  | .global => "@" ++ x.name
  | .block function scope =>
      "%" ++ x.name ++ "." ++ function ++ "." ++
        toString scope

/- The same name and the same binding. -/
def Same
    (x y : Identifier) : Prop :=
  x.name = y.name ∧ x.binding = y.binding

instance
    (x y : Identifier) :
    Decidable (x.Same y) := by
  unfold Same
  infer_instance

end Identifier

/-
  A function header.  The type of the name is the type of
  the value returned.
-/
structure Prototype where
  id : Nat
  name : Identifier
  params : List Identifier
  implemented : Bool
  line : Nat
deriving DecidableEq, Repr

namespace Prototype

/- The type of the value returned. -/
def returnType (p : Prototype) : Ty :=
  p.name.ty

/- The types of the parameters, in order. -/
def paramTypes (p : Prototype) : List Ty :=
  p.params.map (·.ty)

/- Return type and parameter types are given ones. -/
def HasSignature
    (p : Prototype)
    (returnType : Ty)
    (params : List Identifier) : Prop :=
  p.returnType = returnType ∧
    p.paramTypes = params.map (·.ty)

instance
    (p : Prototype)
    (returnType : Ty)
    (params : List Identifier) :
    Decidable (p.HasSignature returnType params) := by
  unfold HasSignature
  infer_instance

end Prototype

end Bracketry
