/-
  This file defines the value types of the language and the
  text by which messages and generated code name them, their
  sizes, and when two of them agree.

  A record type carries the serial number of its
  declaration, so two declarations are different types even
  when they are spelled alike.  Sizes are counted in bits
  and stop at the greatest 64-bit number.
-/

namespace Bracketry

/- The types that have a keyword of their own. -/
inductive Primitive where
| void
| bool
| char
| int
| float
deriving DecidableEq, Repr

/-
  A value type.  An array of length zero is one whose length
  is still to be taken from an initializer.
-/
inductive Ty where
| primitive (kind : Primitive)
| pointer (target : Ty)
| array (length : Nat) (element : Ty)
| record (serial : Nat) (name : String)
    (members : List (String × Ty))
deriving Repr

namespace Ty

@[match_pattern] abbrev void : Ty := .primitive .void
@[match_pattern] abbrev bool : Ty := .primitive .bool
@[match_pattern] abbrev char : Ty := .primitive .char
@[match_pattern] abbrev int : Ty := .primitive .int
@[match_pattern] abbrev float : Ty := .primitive .float

instance : Inhabited Ty :=
  ⟨.void⟩

mutual

/- Equality test of two types. -/
def same : Ty → Ty → Bool
| .primitive a, .primitive b => decide (a = b)
| .pointer a, .pointer b => same a b
| .array m a, .array n b => decide (m = n) && same a b
| .record i x ms, .record j y ns =>
    decide (i = j) && decide (x = y) && sameMembers ms ns
| _, _ => false

/- Equality test of two member lists. -/
def sameMembers :
    List (String × Ty) → List (String × Ty) → Bool
| [], [] => true
| (x, a) :: ms, (y, b) :: ns =>
    decide (x = y) && same a b && sameMembers ms ns
| _, _ => false

end

mutual

/- The test finds exactly the equal types. -/
theorem same_iff : ∀ a b : Ty, same a b = true ↔ a = b
| .primitive a, b => by
    cases b <;> simp [same]
| .pointer a, b => by
    cases b with
    | pointer b => simp [same, same_iff a b]
    | _ => simp [same]
| .array m a, b => by
    cases b with
    | array n b => simp [same, same_iff a b]
    | _ => simp [same]
| .record i x ms, b => by
    cases b with
    | record j y ns =>
        simp [same, sameMembers_iff ms ns, and_assoc]
    | _ => simp [same]

/- The test finds exactly the equal member lists. -/
theorem sameMembers_iff :
    ∀ ms ns : List (String × Ty),
      sameMembers ms ns = true ↔ ms = ns
| [], [] => by
    simp [sameMembers]
| [], _ :: _ => by
    simp [sameMembers]
| (_, _) :: _, [] => by
    simp [sameMembers]
| (x, a) :: ms, (y, b) :: ns => by
    simp [sameMembers, same_iff a b, sameMembers_iff ms ns]

end

instance : DecidableEq Ty :=
  fun a b => decidable_of_iff (same a b = true)
    (same_iff a b)

/- The types that arithmetic is defined on. -/
def IsNumeric : Ty → Prop
| .char => True
| .int => True
| .float => True
| _ => False

instance (t : Ty) : Decidable t.IsNumeric := by
  unfold IsNumeric
  split <;> infer_instance

/- The types with negative values: all that have numbers. -/
def IsSigned (t : Ty) : Prop :=
  t.IsNumeric

instance (t : Ty) : Decidable t.IsSigned := by
  unfold IsSigned
  infer_instance

/- The type of floating-point numbers. -/
def IsFloating : Ty → Prop
| .float => True
| _ => False

instance (t : Ty) : Decidable t.IsFloating := by
  unfold IsFloating
  split <;> infer_instance

/- The types that an array index may have. -/
def IsIntegral : Ty → Prop
| .char => True
| .int => True
| _ => False

instance (t : Ty) : Decidable t.IsIntegral := by
  unfold IsIntegral
  split <;> infer_instance

/- The array types. -/
def IsArray : Ty → Prop
| .array _ _ => True
| _ => False

instance (t : Ty) : Decidable t.IsArray := by
  unfold IsArray
  split <;> infer_instance

/- The element type of an array. -/
def element? : Ty → Option Ty
| .array _ t => some t
| _ => none

/- The name of a type in messages and in generated code. -/
def text : Ty → String
| .void => "void"
| .bool => "i1"
| .char => "i8"
| .int => "i32"
| .float => "double"
| .pointer t => t.text ++ "*"
| .array n t => "[" ++ toString n ++ " x " ++ t.text ++ "]"
| .record _ name _ => "%" ++ name

end Ty

/- A record, numbered in order of declaration. -/
structure Record where
  serial : Nat
  name : String
  members : List (String × Ty)
  line : Nat
deriving DecidableEq, Repr

namespace Record

/- The type that a declaration introduces. -/
def ty (r : Record) : Ty :=
  .record r.serial r.name r.members

/- The right-hand side of its defining line. -/
def definition (r : Record) : String :=
  if r.members.isEmpty then
    "type \x7b\x7d"
  else
    let types := r.members.map fun m => m.2.text
    "type \x7b " ++ String.intercalate ", " types ++ " \x7d"

end Record

/- The first member of a name: position and type. -/
def findMember?
    (members : List (String × Ty))
    (name : String) : Option (Nat × Ty) :=
  match members with
  | [] => none
  | (x, t) :: rest =>
      if x = name then
        some (0, t)
      else
        (findMember? rest name).map fun found =>
          (found.1 + 1, found.2)

/- The greatest size that is told apart. -/
def sizeLimit : Nat :=
  Nat.pow 2 64 - 1

/- Cut a size at the limit. -/
def saturate (size : Nat) : Nat :=
  min size sizeLimit

/- Round a size up to whole bytes. -/
def wholeBytes (size : Nat) : Nat :=
  saturate ((size + 7) / 8 * 8)

namespace Ty

mutual

/- The width of a value in bits. -/
def apparentSize : Ty → Nat
| .void => 0
| .bool => 1
| .char => 8
| .int => 32
| .float => 64
| .pointer _ => 64
| .array n t => saturate (wholeBytes t.apparentSize * n)
| .record _ _ members => membersSize members

/- The width of members laid out one after the other. -/
def membersSize : List (String × Ty) → Nat
| [] => 0
| (_, t) :: rest =>
    saturate (wholeBytes t.apparentSize + membersSize rest)

end

/- The width of the storage of a value, in whole bytes. -/
def storageSize (t : Ty) : Nat :=
  wholeBytes t.apparentSize

end Ty

namespace Record

/- Byte offsets of members, the first one at `start`. -/
def offsetsFrom :
    Nat → List (String × Ty) → List Nat
| _, [] => []
| start, (_, t) :: rest =>
    start :: offsetsFrom
      (saturate (start + t.storageSize / 8)) rest

/- Byte offset of each member. -/
def offsets (r : Record) : List Nat :=
  offsetsFrom 0 r.members

end Record

namespace Ty

/-
  The type in which two operands are combined: the greater
  of the two in the order char, int, float.
-/
def promote
    (a b : Ty) : Option Ty :=
  if a.IsNumeric ∧ b.IsNumeric then
    if a = .float ∨ b = .float then some .float
    else if a = .int ∨ b = .int then some .int
    else some .char
  else
    none

/- Whether values of one type may stand for another. -/
def ConvertsTo
    (source target : Ty) : Prop :=
  source = target ∨ (source.IsNumeric ∧ target.IsNumeric)

instance
    (source target : Ty) :
    Decidable (source.ConvertsTo target) := by
  unfold ConvertsTo
  infer_instance

/- Every array level has a length of its own. -/
def IsFullySpecified : Ty → Prop
| .array n t => 0 < n ∧ t.IsFullySpecified
| _ => True

/- Decision procedure for full specification. -/
def decideFullySpecified :
    (t : Ty) → Decidable t.IsFullySpecified
| .array n t => by
    have := decideFullySpecified t
    unfold IsFullySpecified
    infer_instance
| .primitive _ => isTrue trivial
| .pointer _ => isTrue trivial
| .record _ _ _ => isTrue trivial

instance (t : Ty) : Decidable t.IsFullySpecified :=
  decideFullySpecified t

/-
  Complete a declared type from the type of a literal.  The
  levels must correspond, a declared length of zero takes
  the literal's, and at the bottom the literal must convert.
-/
def inferFrom :
    Ty → Ty → Option Ty
| .array m declared, .array n literal =>
    if m = 0 ∨ m = n then
      (inferFrom declared literal).map (.array n)
    else
      none
| .array _ _, _ => none
| _, .array _ _ => none
| declared, literal =>
    if literal.ConvertsTo declared then some declared else
      none

/- The common type of two elements of an array literal. -/
def unify :
    Ty → Ty → Option Ty
| .array m a, .array n b =>
    if m = n then (unify a b).map (.array m) else none
| a, b =>
    match promote a b with
    | some t => some t
    | none => if a = b then some a else none

end Ty

end Bracketry
