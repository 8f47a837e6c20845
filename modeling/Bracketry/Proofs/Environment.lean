import Bracketry.Proofs.Datum
import Bracketry.Proofs.Meaning
import Bracketry.Proofs.Expr.Typing

/-
  This file defines what a program is run in: a memory, the
  functions that it calls and the operations on floats; and
  which value an expression has there, without any code.

  Operands are evaluated from the left to the right and are
  promoted to the type of their node first.  An evaluation
  is undefined where an operation is, and where a position
  is not one of the parts of an array.

  Main declarations:
    * `Environment` and `Environment.machine`
    * `Place.path` and `Expr.evaluate`
-/

namespace Bracketry

/-
  What a program is run in.  A state of type `S` tells what
  is in memory, and calls may change it.
-/
structure Environment (S : Type) where
  memory : S → String → Datum
  call : String → Ty → List Datum → StateM S Datum
  arithmetic : Arithmetic → Double → Double → Double
  negate : Double → Double
  compare : Comparison → Double → Double → Bool
  call_admits :
    ∀ (callee : String) (t : Ty) (args : List Datum)
      (s : S), t.Admits (call callee t args s).1

namespace Environment

variable {S : Type} {a b : Datum}
variable (E : Environment S)

/- The result of an operation on two numbers of one type. -/
def combined
    (E : Environment S)
    (op : Arithmetic) :
    Datum → Datum → Except Undefined Datum
| .char x, .char y => do
    let result ← op.exact 8 x.toInt y.toInt
    return .char (.ofInt 8 result)
| .int x, .int y => do
    let result ← op.exact 32 x.toInt y.toInt
    return .int (.ofInt 32 result)
| .float x, .float y => return .float (E.arithmetic op x y)
| _, _ => throw .illTyped

/- A number with the opposite sign. -/
def negated
    (E : Environment S) :
    Datum → Except Undefined Datum
| .char x => return .char (.ofInt 8 (-x.toInt))
| .int x => return .int (.ofInt 32 (-x.toInt))
| .float x => return .float (E.negate x)
| _ => throw .illTyped

/-
  Whether a comparison holds between two values of one type.
  Truth values can only be equal or not.
-/
def compared
    (E : Environment S)
    (op : Comparison) :
    Datum → Datum → Except Undefined Datum
| .bool x, .bool y =>
    match op with
    | .equal => return .bool (decide (x = y))
    | .notEqual => return .bool (decide (x ≠ y))
    | _ => throw .illTyped
| .char x, .char y =>
    return .bool (op.exact x.toInt y.toInt)
| .int x, .int y => return .bool (op.exact x.toInt y.toInt)
| .float x, .float y => return .bool (E.compare op x y)
| _, _ => throw .illTyped

/- What an address leads to. -/
def loaded
    (E : Environment S)
    (s : S) :
    Datum → Datum
| .address slot path =>
    ((E.memory s slot).at? path).getD .nothing
| _ => .nothing

/- The address of a part. -/
def addressed : Datum → Datum → Datum
| .address slot path, .int x =>
    if 0 ≤ x.toInt then
      .address slot (path ++ [x.toInt.toNat])
    else
      .nothing
| _, _ => .nothing

/- An arithmetic instruction of a type. -/
def combinedBits
    (E : Environment S)
    (op : Arithmetic) :
    Ty → Datum → Datum → Datum
| .char, .char x, .char y => .char (op.onBits x y)
| .int, .int x, .int y => .int (op.onBits x y)
| .float, .float x, .float y => .float (E.arithmetic op x y)
| _, _, _ => .nothing

/- Subtraction from zero, or the negation of a float. -/
def negatedBits
    (E : Environment S) :
    Ty → Datum → Datum
| .char, .char x => .char (0 - x)
| .int, .int x => .int (0 - x)
| .float, .float x => .float (E.negate x)
| _, _ => .nothing

/- A comparing instruction of a type. -/
def comparedBits
    (E : Environment S)
    (op : Comparison) :
    Ty → Datum → Datum → Datum
| .bool, .bool x, .bool y =>
    .bool (op.onBits (BitVec.ofBool x) (BitVec.ofBool y))
| .char, .char x, .char y => .bool (op.onBits x y)
| .int, .int x, .int y => .bool (op.onBits x y)
| .float, .float x, .float y => .bool (E.compare op x y)
| _, _, _ => .nothing

/-
  A converting instruction.  Widening clears the new bits
  and narrowing drops bits, whatever the sign is.
-/
def convertedBits :
    Conversion → Ty → Datum → Datum
| .intToFloat, .float, .char x => .float (.ofInt x.toInt)
| .intToFloat, .float, .int x => .float (.ofInt x.toInt)
| .floatToInt, .char, .float x =>
    ((x.toBits? 8).map Datum.char).getD .nothing
| .floatToInt, .int, .float x =>
    ((x.toBits? 32).map Datum.int).getD .nothing
| .widen, .int, .char x => .int (x.setWidth 32)
| .narrow, .char, .int x => .char (x.setWidth 8)
| _, _, _ => .nothing

/-
  The instructions in an environment.  Expressions neither
  store nor return, so those two do nothing here.
-/
def machine
    (E : Environment S) :
    Interpretation Datum S where
  int := Datum.literal
  float x _ := .float x
  bool value _ := .bool value
  slot name _ := .address name []
  array parts _ := .aggregate parts
  zero := Datum.zero
  nothing _ := .nothing
  load _ address := fun s => (E.loaded s address, s)
  store _ _ := return ()
  arithmetic op t a b := return E.combinedBits op t a b
  negate t a := return E.negatedBits t a
  compare op t a b := return E.comparedBits op t a b
  convert how _ target a :=
    return convertedBits how target a
  element _ base index _ := return addressed base index
  call := E.call
  test
  | .bool value => return value
  | _ => return false
  ret _ := return ()

variable {t : Ty}

/- The operands of an instruction of a numeric type. -/
theorem admits_numeric
    {d : Datum}
    (hNumeric : t.IsNumeric)
    (hAdmits : t.Admits d) :
    (t = .char ∧ ∃ bits, d = .char bits) ∨
      (t = .int ∧ ∃ bits, d = .int bits) ∨
        (t = .float ∧ ∃ value, d = .float value) := by
  cases t with
  | primitive p =>
      cases p with
      | char =>
          rw [Ty.Admits] at hAdmits
          exact .inl ⟨rfl, hAdmits⟩
      | int =>
          rw [Ty.Admits] at hAdmits
          exact .inr (.inl ⟨rfl, hAdmits⟩)
      | float =>
          rw [Ty.Admits] at hAdmits
          exact .inr (.inr ⟨rfl, hAdmits⟩)
      | _ => exact absurd hNumeric id
  | _ => exact absurd hNumeric id

/- Arithmetic on bits gives what is exact. -/
theorem combined_settled
    (op : Arithmetic)
    (hNumeric : t.IsNumeric)
    (hLeft : t.Admits a)
    (hRight : t.Admits b) :
    Settled (fun d => E.combinedBits op t a b = d ∧
      t.Admits d) (E.combined op a b) := by
  rcases admits_numeric hNumeric hLeft with
    ⟨rfl, x, rfl⟩ | ⟨rfl, x, rfl⟩ | ⟨rfl, x, rfl⟩
  · rw [Ty.Admits] at hRight
    rcases hRight with ⟨y, rfl⟩
    apply (op.exact_settled x y).bind
    intro result hBits
    exact ⟨congrArg Datum.char hBits, Ty.admits_char _⟩
  · rw [Ty.Admits] at hRight
    rcases hRight with ⟨y, rfl⟩
    apply (op.exact_settled x y).bind
    intro result hBits
    exact ⟨congrArg Datum.int hBits, Ty.admits_int _⟩
  · rw [Ty.Admits] at hRight
    rcases hRight with ⟨y, rfl⟩
    exact ⟨rfl, Ty.admits_float _⟩

/- Subtraction from zero gives the opposite number. -/
theorem negated_settled
    (hNumeric : t.IsNumeric)
    (hOperand : t.Admits a) :
    Settled (fun d => E.negatedBits t a = d ∧ t.Admits d)
      (E.negated a) := by
  have hOpposite :
      ∀ {w : Nat} (x : BitVec w), 0 - x =
        BitVec.ofInt w (-x.toInt) := by
    intro w x
    rw [BitVec.ofInt_neg, BitVec.ofInt_toInt]
    exact BitVec.zero_sub x
  rcases admits_numeric hNumeric hOperand with
    ⟨rfl, x, rfl⟩ | ⟨rfl, x, rfl⟩ | ⟨rfl, x, rfl⟩
  · exact ⟨congrArg Datum.char (hOpposite x),
      Ty.admits_char _⟩
  · exact ⟨congrArg Datum.int (hOpposite x),
      Ty.admits_int _⟩
  · exact ⟨rfl, Ty.admits_float _⟩

/- A comparison of bits holds where the exact one does. -/
theorem compared_settled
    (op : Comparison)
    (hComparable : t.IsNumeric ∨
      (op.IsEquality ∧ t = .bool))
    (hLeft : t.Admits a)
    (hRight : t.Admits b) :
    Settled (fun d => E.comparedBits op t a b = d ∧
      Ty.bool.Admits d) (E.compared op a b) := by
  rcases hComparable with hNumeric | ⟨hEquality, rfl⟩
  · rcases admits_numeric hNumeric hLeft with
      ⟨rfl, x, rfl⟩ | ⟨rfl, x, rfl⟩ | ⟨rfl, x, rfl⟩
    · rw [Ty.Admits] at hRight
      rcases hRight with ⟨y, rfl⟩
      exact ⟨congrArg Datum.bool (op.onBits_eq x y),
        Ty.admits_bool _⟩
    · rw [Ty.Admits] at hRight
      rcases hRight with ⟨y, rfl⟩
      exact ⟨congrArg Datum.bool (op.onBits_eq x y),
        Ty.admits_bool _⟩
    · rw [Ty.Admits] at hRight
      rcases hRight with ⟨y, rfl⟩
      exact ⟨rfl, Ty.admits_bool _⟩
  · rw [Ty.Admits] at hLeft hRight
    rcases hLeft with ⟨x, rfl⟩
    rcases hRight with ⟨y, rfl⟩
    cases op with
    | equal =>
        refine ⟨congrArg Datum.bool ?_, Ty.admits_bool _⟩
        revert x y
        decide
    | notEqual =>
        refine ⟨congrArg Datum.bool ?_, Ty.admits_bool _⟩
        revert x y
        decide
    | _ => exact absurd hEquality id

/- Widening keeps the number without a sign. -/
theorem widened_eq
    (x : BitVec 8) :
    x.setWidth 32 = BitVec.ofInt 32 x.toNat := by
  rw [BitVec.ofInt_natCast, BitVec.ofNat_toNat]

/- Narrowing keeps the number modulo a power of two. -/
theorem narrowed_eq
    (x : BitVec 32) :
    x.setWidth 8 = BitVec.ofInt 8 x.toInt :=
  (BitVec.signExtend_eq_setWidth_of_le x (by decide)).symm

/- What fits into the bits of a type is converted to it. -/
theorem inRange_settled
    {result : Option Datum}
    (hAdmits : ∀ d, result = some d → t.Admits d) :
    Settled (fun d => result.getD .nothing = d ∧ t.Admits d)
      (Datum.inRange result) := by
  cases result with
  | some d => exact ⟨rfl, hAdmits d rfl⟩
  | none =>
      intro hReason
      cases hReason

/- A conversion of bits gives the number asked for. -/
theorem converted_settled
    {source target : Ty}
    {how : Conversion}
    (hTarget : target.IsNumeric)
    (hNe : source ≠ target)
    (hHow : Conversion.between? source target = some how)
    (hSource : source.IsNumeric)
    (hOperand : source.Admits a) :
    Settled (fun d => convertedBits how target a = d ∧
      target.Admits d) (a.converted source target) := by
  unfold Datum.converted
  rw [if_neg hNe]
  rcases admits_numeric hSource hOperand with
    ⟨rfl, x, rfl⟩ | ⟨rfl, x, rfl⟩ | ⟨rfl, x, rfl⟩ <;>
  rcases (Ty.isNumeric_iff target).mp hTarget with
    rfl | rfl | rfl
  · exact absurd rfl hNe
  · cases hHow
    exact ⟨congrArg Datum.int (widened_eq x),
      Ty.admits_int _⟩
  · cases hHow
    exact ⟨rfl, Ty.admits_float _⟩
  · cases hHow
    exact ⟨congrArg Datum.char (narrowed_eq x),
      Ty.admits_char _⟩
  · exact absurd rfl hNe
  · cases hHow
    exact ⟨rfl, Ty.admits_float _⟩
  · cases hHow
    apply inRange_settled
    intro d hSome
    rcases Option.map_eq_some_iff.mp hSome with
      ⟨bits, -, rfl⟩
    exact Ty.admits_char bits
  · cases hHow
    apply inRange_settled
    intro d hSome
    rcases Option.map_eq_some_iff.mp hSome with
      ⟨bits, -, rfl⟩
    exact Ty.admits_int bits
  · exact absurd rfl hNe

end Environment

------------------------------------------------------------
-- Evaluation
------------------------------------------------------------

section

variable {S α : Type}

/- An evaluation changes a state, or is undefined. -/
abbrev Evaluation (S α : Type) :=
  EStateM Undefined S α

namespace Evaluation

/- Something that cannot be undefined. -/
def ofState (x : StateM S α) : Evaluation S α :=
  fun s => .ok (x s).1 (x s).2

/- Evaluate to one type and convert the value to another. -/
def convertedTo
    (source target : Ty)
    (x : Evaluation S Datum) : Evaluation S Datum := do
  let d ← x
  ofExcept (d.converted source target)

end Evaluation

namespace Datum

/- The number that an integer is. -/
def number : Datum → Except Undefined Int
| .int x => .ok x.toInt
| _ => .error .illTyped

/- The truth value that a bool is. -/
def truth : Datum → Except Undefined Bool
| .bool value => .ok value
| _ => .error .illTyped

end Datum

/- A number as the position of a part. -/
def Ty.position
    (t : Ty)
    (n : Int) : Except Undefined Nat :=
  if (t.part? n.toNat).isSome ∧ 0 ≤ n ∧ n < 2147483648 then
    .ok n.toNat
  else
    .error .indexOutOfRange

/- What is in memory at the end of a path. -/
def Environment.read
    (E : Environment S)
    (slot : String)
    (path : List Nat) : Evaluation S Datum := do
  let s ← get
  match (E.memory s slot).at? path with
  | some d => return d
  | none => throw .illTyped

open Evaluation

mutual

/- The positions that lead from a variable to a place. -/
def Place.path
    (E : Environment S) :
    Place → Evaluation S (List Nat)
| .var _ => return []
| .element parent index _ => do
    let path ← parent.path E
    let d ← index.evaluateAs E .int
    let n ← ofExcept d.number
    let position ← ofExcept (parent.ty.position n)
    return path ++ [position]
| .member parent n _ _ => do
    let path ← parent.path E
    let position ← ofExcept (parent.ty.position n)
    return path ++ [position]

/-
  The value of an expression as a value of a given type.
  The elements of an array literal become values of the
  element type that is asked for; any other value is
  converted when it is known.
-/
def Expr.evaluateAs
    (E : Environment S) :
    Expr → Ty → Evaluation S Datum
| .int n t _, target =>
    convertedTo t target (return .literal n t)
| .float x _, target =>
    convertedTo .float target (return .float x)
| .boolean value _, target =>
    convertedTo .bool target (return .bool value)
| .zero t _, target =>
    convertedTo t target (return .zero t)
| .array elements _ _, target =>
    match target with
    | .array _ t => do
        let parts ← Expr.evaluateAll E elements t
        return .aggregate parts
    | _ => throw .illTyped
| .read place _, target =>
    convertedTo place.ty target do
      let path ← place.path E
      E.read place.root.storage path
| .arithmetic op left right t _, target =>
    convertedTo t target do
      let a ← left.evaluateAs E t
      let b ← right.evaluateAs E t
      ofExcept (E.combined op a b)
| .negate operand t _, target =>
    convertedTo t target do
      let a ← operand.evaluateAs E t
      ofExcept (E.negated a)
| .call callee _ args params t _, target =>
    convertedTo t target do
      let values ← Expr.evaluateEach E args params
      ofState (E.call callee.storage t values)
| .compare op left right _, target =>
    convertedTo .bool target do
      let common := (left.ty.promote right.ty).getD .bool
      let a ← left.evaluateAs E common
      let b ← right.evaluateAs E common
      ofExcept (E.compared op a b)
| .and left right _, target =>
    convertedTo .bool target do
      let a ← left.evaluateAs E .bool
      if ← ofExcept a.truth then
        right.evaluateAs E .bool
      else
        return .bool false
| .or left right _, target =>
    convertedTo .bool target do
      let a ← left.evaluateAs E .bool
      if ← ofExcept a.truth then
        return .bool true
      else
        right.evaluateAs E .bool
| .not operand _, target =>
    convertedTo .bool target do
      let a ← operand.evaluateAs E .bool
      let outcome ← ofExcept a.truth
      return .bool (!outcome)

/- The values of elements, all of one type. -/
def Expr.evaluateAll
    (E : Environment S) :
    List Expr → Ty → Evaluation S (List Datum)
| [], _ => return []
| e :: rest, t => do
    let d ← e.evaluateAs E t
    let ds ← Expr.evaluateAll E rest t
    return d :: ds

/- The values of arguments, in their parameters' types. -/
def Expr.evaluateEach
    (E : Environment S) :
    List Expr → List Ty → Evaluation S (List Datum)
| e :: rest, t :: ts => do
    let d ← e.evaluateAs E t
    let ds ← Expr.evaluateEach E rest ts
    return d :: ds
| _, _ => return []

end

/- The value of an expression. -/
def Expr.evaluate
    (E : Environment S)
    (e : Expr) : Evaluation S Datum :=
  e.evaluateAs E e.ty

mutual

/- All character literals in the indices are plain ones. -/
def Place.PlainCharacters : Place → Prop
| .var _ => True
| .element parent index _ =>
    parent.PlainCharacters ∧ index.PlainCharacters
| .member parent _ _ _ => parent.PlainCharacters

/- All character literals have their sign bit clear. -/
def Expr.PlainCharacters : Expr → Prop
| .int n t _ => t = .char → 0 ≤ n ∧ n ≤ 127
| .array elements _ _ => Expr.AllPlainCharacters elements
| .read place _ => place.PlainCharacters
| .arithmetic _ left right _ _ =>
    left.PlainCharacters ∧ right.PlainCharacters
| .negate operand _ _ => operand.PlainCharacters
| .call _ _ args _ _ _ => Expr.AllPlainCharacters args
| .compare _ left right _ =>
    left.PlainCharacters ∧ right.PlainCharacters
| .and left right _ =>
    left.PlainCharacters ∧ right.PlainCharacters
| .or left right _ =>
    left.PlainCharacters ∧ right.PlainCharacters
| .not operand _ => operand.PlainCharacters
| _ => True

/- So are all character literals of several expressions. -/
def Expr.AllPlainCharacters : List Expr → Prop
| [] => True
| e :: rest =>
    e.PlainCharacters ∧ Expr.AllPlainCharacters rest

end

end

variable {S : Type}

/- Wrapping keeps the bits. -/
theorem ofInt_wrap
    (w : Nat)
    (n : Int) :
    BitVec.ofInt w (wrap w n) = BitVec.ofInt w n := by
  apply BitVec.toInt_inj.mp
  rw [BitVec.toInt_ofInt, BitVec.toInt_ofInt]
  exact Int.bmod_bmod

/- The bits of an integer without its sign. -/
theorem toNat_ofInt_eight
    (n : Int) :
    ((BitVec.ofInt 8 n).toNat : Int) = n % 256 := by
  rw [BitVec.toNat_ofInt]
  omega

/- The bits of a number that is in their range. -/
theorem toInt_ofInt_of_range
    {n : Int}
    (hLow : -2147483648 ≤ n)
    (hHigh : n ≤ 2147483647) :
    (BitVec.ofInt 32 n).toInt = n :=
  BitVec.toInt_ofInt_eq_self (by decide) (by omega)
    (by omega)

namespace Value

variable {target : Ty} {n : Int}
variable (E : Environment S)

/- The constant that an int literal is folded to. -/
theorem ofInt?_settled_int
    (hLow : -2147483648 ≤ n)
    (hHigh : n ≤ 2147483647)
    (hTarget : target.IsNumeric) :
    ∃ folded, ofInt? n .int target = some folded ∧
      Settled
        (fun d => E.machine.constant folded = d ∧
          target.Admits d)
        ((Datum.literal n .int).converted .int target) := by
  have hNumber := toInt_ofInt_of_range hLow hHigh
  rcases (Ty.isNumeric_iff target).mp hTarget with
    rfl | rfl | rfl
  · refine ⟨_, rfl, ?_, Ty.admits_char _⟩
    apply congrArg Datum.char
    rw [ofInt_wrap, hNumber]
  · refine ⟨_, rfl, ?_⟩
    rw [Datum.converted_self]
    exact ⟨congrArg Datum.int (ofInt_wrap 32 n),
      Ty.admits_int _⟩
  · refine ⟨_, rfl, ?_, Ty.admits_float _⟩
    apply congrArg Datum.float
    rw [hNumber]
    rfl

/- The constant that a character literal is folded to. -/
theorem ofInt?_settled_char
    (hSign : target = .float → 0 ≤ n)
    (hHigh : n ≤ 127)
    (hTarget : target.IsNumeric) :
    ∃ folded, ofInt? n .char target = some folded ∧
      Settled
        (fun d => E.machine.constant folded = d ∧
          target.Admits d)
        ((Datum.literal n .char).converted .char
          target) := by
  rcases (Ty.isNumeric_iff target).mp hTarget with
    rfl | rfl | rfl
  · refine ⟨_, rfl, ?_⟩
    rw [Datum.converted_self]
    exact ⟨congrArg Datum.char (ofInt_wrap 8 n),
      Ty.admits_char _⟩
  · refine ⟨_, rfl, ?_, Ty.admits_int _⟩
    apply congrArg Datum.int
    rw [ofInt_wrap, toNat_ofInt_eight]
    rfl
  · refine ⟨_, rfl, ?_, Ty.admits_float _⟩
    apply congrArg Datum.float
    have hLow := hSign rfl
    have hNumber : (BitVec.ofInt 8 n).toInt = n :=
      BitVec.toInt_ofInt_eq_self (by decide) (by omega)
        (by omega)
    have hWidened : widened n .char = n := by
      change n % 256 = n
      omega
    rw [hNumber, hWidened]

/- The constant that a float literal is folded to. -/
theorem ofFloat?_settled
    (x : Double)
    (hTarget : target.IsNumeric) :
    ∃ folded, ofFloat? x target = some folded ∧
      Settled
        (fun d => E.machine.constant folded = d ∧
          target.Admits d)
        ((Datum.float x).converted .float target) := by
  rcases (Ty.isNumeric_iff target).mp hTarget with
    rfl | rfl | rfl
  · refine ⟨_, rfl, ?_⟩
    change Settled _
      (Datum.inRange ((x.toBits? 8).map .char))
    cases hBits : x.toBits? 8 with
    | none =>
        intro hReason
        cases hReason
    | some bits =>
        have hFolded :=
          Double.ofInt_toInt32 (by decide) hBits
        refine ⟨congrArg Datum.char ?_, Ty.admits_char bits⟩
        rw [ofInt_wrap, hFolded]
  · refine ⟨_, rfl, ?_⟩
    change Settled _
      (Datum.inRange ((x.toBits? 32).map .int))
    cases hBits : x.toBits? 32 with
    | none =>
        intro hReason
        cases hReason
    | some bits =>
        have hFolded :=
          Double.ofInt_toInt32 (by decide) hBits
        exact ⟨congrArg Datum.int hFolded,
          Ty.admits_int bits⟩
  · refine ⟨_, rfl, ?_⟩
    rw [Datum.converted_self]
    exact ⟨rfl, Ty.admits_float _⟩

end Value

end Bracketry
