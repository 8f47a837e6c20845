import Bracketry.Expr.Lowering

/-
  This file defines the values that a program computes with,
  and the operations on them.

  A bool is a truth value, a character eight bits, an
  integer thirty-two, and a float a double.  Arrays and
  records are the list of their parts.

  Operations on numbers are defined exactly, on the integers
  that the bits stand for, and on the bits.  The exact
  result is cut to the width of its operands.  A division by
  zero is undefined, and so is what goes out of range in a
  quotient or in a float.
-/

namespace Bracketry

------------------------------------------------------------
-- Values
------------------------------------------------------------

/-
  A value.  Where there is none, as behind a call that has
  no result, `nothing` stands for it.
-/
inductive Datum where
| nothing
| bool (value : Bool)
| char (bits : BitVec 8)
| int (bits : BitVec 32)
| float (value : Double)
| address (slot : String) (path : List Nat)
| aggregate (parts : List Datum)

namespace Datum

/- An integer literal of a type. -/
def literal
    (n : Int) :
    Ty → Datum
| .char => .char (.ofInt 8 n)
| .int => .int (.ofInt 32 n)
| _ => .nothing

/- The part at a position. -/
def part?
    (position : Nat) :
    Datum → Option Datum
| .aggregate parts => parts[position]?
| _ => none

/- The part at the end of a path. -/
def at?
    (path : List Nat)
    (d : Datum) : Option Datum :=
  match path with
  | [] => some d
  | position :: rest => (d.part? position).bind (at? rest)

/- A longer path goes on from the end of a shorter one. -/
theorem at?_append
    (path : List Nat)
    (position : Nat)
    (d : Datum) :
    d.at? (path ++ [position]) =
      (d.at? path).bind (part? position) := by
  induction path generalizing d with
  | nil =>
      change (d.part? position).bind (at? []) =
        d.part? position
      cases d.part? position with
      | none => rfl
      | some p => rfl
  | cons first rest ih =>
      change (d.part? first).bind
        (at? (rest ++ [position])) =
        ((d.part? first).bind (at? rest)).bind
          (part? position)
      cases d.part? first with
      | none => rfl
      | some p => exact ih p

mutual

/- The value of a type that has all bits clear. -/
def zero : Ty → Datum
| .void => .nothing
| .bool => .bool false
| .char => .char 0
| .int => .int 0
| .float => .float .zero
| .pointer _ => .nothing
| .array n t => .aggregate (List.replicate n (zero t))
| .record _ _ members => .aggregate (zeros members)

/- The members of a record that has all bits clear. -/
def zeros : List (String × Ty) → List Datum
| [] => []
| (_, t) :: rest => zero t :: zeros rest

end

end Datum

namespace Ty

mutual

/-
  The values of a type.  Nothing is asked of pointers, since
  no expression looks through one.
-/
def Admits : Ty → Datum → Prop
| .void, d => d = .nothing
| .bool, d => ∃ value, d = .bool value
| .char, d => ∃ bits, d = .char bits
| .int, d => ∃ bits, d = .int bits
| .float, d => ∃ value, d = .float value
| .pointer _, _ => True
| .array n t, d =>
    ∃ parts, d = .aggregate parts ∧ parts.length = n ∧
      ∀ part ∈ parts, t.Admits part
| .record _ _ members, d =>
    ∃ parts, d = .aggregate parts ∧ AdmitsEach members parts

/- The values of members, one for each. -/
def AdmitsEach : List (String × Ty) → List Datum → Prop
| [], parts => parts = []
| (_, t) :: members, parts =>
    ∃ part rest, parts = part :: rest ∧
      t.Admits part ∧ AdmitsEach members rest

end

@[simp] theorem admits_bool
    (value : Bool) :
    Ty.bool.Admits (.bool value) := by
  rw [Admits]
  exact ⟨value, rfl⟩

@[simp] theorem admits_char
    (bits : BitVec 8) :
    Ty.char.Admits (.char bits) := by
  rw [Admits]
  exact ⟨bits, rfl⟩

@[simp] theorem admits_int
    (bits : BitVec 32) :
    Ty.int.Admits (.int bits) := by
  rw [Admits]
  exact ⟨bits, rfl⟩

@[simp] theorem admits_float
    (value : Double) :
    Ty.float.Admits (.float value) := by
  rw [Admits]
  exact ⟨value, rfl⟩

mutual

/- All types have a value with all bits clear. -/
theorem admits_zero :
    ∀ t : Ty, t.Admits (Datum.zero t)
| .void => by
    rw [Datum.zero, Admits]
| .bool => by
    rw [Datum.zero]
    exact admits_bool false
| .char => by
    rw [Datum.zero]
    exact admits_char 0
| .int => by
    rw [Datum.zero]
    exact admits_int 0
| .float => by
    rw [Datum.zero]
    exact admits_float .zero
| .pointer t => by
    rw [Admits]
    trivial
| .array n t => by
    rw [Datum.zero, Admits]
    refine ⟨_, rfl, List.length_replicate, ?_⟩
    intro part hMem
    rw [List.eq_of_mem_replicate hMem]
    exact admits_zero t
| .record serial name members => by
    rw [Datum.zero, Admits]
    exact ⟨_, rfl, admitsEach_zeros members⟩

theorem admitsEach_zeros :
    ∀ members : List (String × Ty),
      AdmitsEach members (Datum.zeros members)
| [] => by
    rw [Datum.zeros, AdmitsEach]
| (_, t) :: rest => by
    rw [Datum.zeros, AdmitsEach]
    exact ⟨_, _, rfl, admits_zero t, admitsEach_zeros rest⟩

end

/- The type of the part at a position. -/
def part?
    (position : Nat) :
    Ty → Option Ty
| .array n t => if position < n then some t else none
| .record _ _ members => (members[position]?).map Prod.snd
| _ => none

/- A member has a value of its own type. -/
theorem AdmitsEach.getElem?
    {members : List (String × Ty)}
    {parts : List Datum}
    {position : Nat}
    {name : String}
    {t : Ty}
    (hEach : AdmitsEach members parts)
    (hMember : members[position]? = some (name, t)) :
    ∃ part, parts[position]? = some part ∧
      t.Admits part := by
  induction members generalizing parts position with
  | nil => cases hMember
  | cons member rest ih =>
      rw [AdmitsEach] at hEach
      rcases hEach with ⟨part, others, rfl, hFirst, hRest⟩
      cases position with
      | zero =>
          cases hMember
          exact ⟨part, rfl, hFirst⟩
      | succ position =>
          rw [List.getElem?_cons_succ] at hMember ⊢
          exact ih hRest hMember

/- A value has a part wherever its type has one. -/
theorem Admits.part?
    {t u : Ty}
    {d : Datum}
    {position : Nat}
    (hAdmits : t.Admits d)
    (hPart : t.part? position = some u) :
    ∃ part, d.part? position = some part ∧
      u.Admits part := by
  cases t with
  | primitive p => cases hPart
  | pointer t => cases hPart
  | array n t =>
      rw [Admits] at hAdmits
      rcases hAdmits with ⟨parts, rfl, rfl, hParts⟩
      rw [Ty.part?] at hPart
      by_cases hLt : position < parts.length
      · rw [if_pos hLt] at hPart
        cases hPart
        refine ⟨parts[position],
          List.getElem?_eq_getElem hLt, ?_⟩
        exact hParts _ (List.getElem_mem hLt)
      · rw [if_neg hLt] at hPart
        cases hPart
  | record serial name members =>
      rw [Admits] at hAdmits
      rcases hAdmits with ⟨parts, rfl, hEach⟩
      rcases Option.map_eq_some_iff.mp hPart with
        ⟨⟨name, w⟩, hMember, rfl⟩
      exact hEach.getElem? hMember

end Ty

------------------------------------------------------------
-- Operations
------------------------------------------------------------

/- Why an evaluation has no value. -/
inductive Undefined where
| divisionByZero
| divisionOverflow
| indexOutOfRange
| conversionOutOfRange
| illTyped
deriving DecidableEq, Repr

/-
  A result is as wanted; where there is none, this is not
  for the types of the operands.
-/
def Settled
    {α : Type}
    (P : α → Prop) :
    Except Undefined α → Prop
| .ok a => P a
| .error reason => reason ≠ .illTyped

theorem Settled.bind
    {α β : Type}
    {P : α → Prop}
    {Q : β → Prop}
    {x : Except Undefined α}
    {f : α → Except Undefined β}
    (hFirst : Settled P x)
    (hSecond : ∀ a, P a → Settled Q (f a)) :
    Settled Q (x >>= f) := by
  cases x with
  | ok a => exact hSecond a hFirst
  | error reason => exact hFirst

namespace Arithmetic

variable {w : Nat}

/-
  The exact result of an operation on numbers of a width.  A
  quotient is rounded toward zero; the least number divided
  by minus one has none of the width.
-/
def exact
    (op : Arithmetic)
    (w : Nat)
    (a b : Int) : Except Undefined Int :=
  match op with
  | .add => .ok (a + b)
  | .subtract => .ok (a - b)
  | .multiply => .ok (a * b)
  | .divide =>
      if b = 0 then
        .error .divisionByZero
      else if a = -Int.pow 2 (w - 1) ∧ b = -1 then
        .error .divisionOverflow
      else
        .ok (a.tdiv b)

/- An operation on bits; division takes them as signed. -/
def onBits
    (op : Arithmetic)
    (x y : BitVec w) : BitVec w :=
  match op with
  | .add => x + y
  | .subtract => x - y
  | .multiply => x * y
  | .divide => x.sdiv y

/- The bits of a result are those of the exact one. -/
theorem exact_settled
    (op : Arithmetic)
    (x y : BitVec w) :
    Settled
      (fun result => op.onBits x y = BitVec.ofInt w result)
      (op.exact w x.toInt y.toInt) := by
  cases op with
  | add =>
      apply BitVec.toInt_inj.mp
      rw [BitVec.toInt_ofInt]
      exact BitVec.toInt_add x y
  | subtract =>
      apply BitVec.toInt_inj.mp
      rw [BitVec.toInt_ofInt]
      exact BitVec.toInt_sub
  | multiply =>
      apply BitVec.toInt_inj.mp
      rw [BitVec.toInt_ofInt]
      exact BitVec.toInt_mul x y
  | divide =>
      rw [exact]
      by_cases hZero : y.toInt = 0
      · rw [if_pos hZero]
        intro hReason
        cases hReason
      · rw [if_neg hZero]
        by_cases hLeast :
            x.toInt = -Int.pow 2 (w - 1) ∧ y.toInt = -1
        · rw [if_pos hLeast]
          intro hReason
          cases hReason
        · rw [if_neg hLeast]
          apply BitVec.toInt_inj.mp
          rw [BitVec.toInt_ofInt]
          exact BitVec.toInt_sdiv x y

end Arithmetic

namespace Comparison

variable {w : Nat}

/- Whether a comparison holds between two numbers. -/
def exact
    (op : Comparison)
    (a b : Int) : Bool :=
  match op with
  | .less => decide (a < b)
  | .lessEqual => decide (a ≤ b)
  | .equal => decide (a = b)
  | .notEqual => decide (a ≠ b)
  | .greaterEqual => decide (b ≤ a)
  | .greater => decide (b < a)

/- A comparison of bits, which are taken as signed. -/
def onBits
    (op : Comparison)
    (x y : BitVec w) : Bool :=
  match op with
  | .less => x.slt y
  | .lessEqual => x.sle y
  | .equal => x == y
  | .notEqual => x != y
  | .greaterEqual => y.sle x
  | .greater => y.slt x

/- Bits compare as the numbers that they stand for. -/
theorem onBits_eq
    (op : Comparison)
    (x y : BitVec w) :
    op.onBits x y = op.exact x.toInt y.toInt := by
  apply Bool.eq_iff_iff.mpr
  cases op with
  | less => simp [onBits, exact, BitVec.slt_iff_toInt_lt]
  | lessEqual =>
      simp [onBits, exact, BitVec.sle_iff_toInt_le]
  | equal => simp [onBits, exact, BitVec.toInt_inj]
  | notEqual => simp [onBits, exact, BitVec.toInt_inj]
  | greaterEqual =>
      simp [onBits, exact, BitVec.sle_iff_toInt_le]
  | greater => simp [onBits, exact, BitVec.slt_iff_toInt_lt]

end Comparison

namespace Double

/- The integer part; a fraction is dropped toward zero. -/
def truncated (x : Double) : Int :=
  let whole : Int := (x.units / Nat.pow 2 1074 : Nat)
  if x.negative then -whole else whole

/- The integer part in some bits, if it fits. -/
def toBits?
    (w : Nat)
    (x : Double) : Option (BitVec w) :=
  if x.IsFinite ∧ -Int.pow 2 (w - 1) ≤ x.truncated ∧
      x.truncated < Int.pow 2 (w - 1) then
    some (BitVec.ofInt w x.truncated)
  else
    none

/- Clamping does nothing to what fits into no more bits. -/
theorem ofInt_toInt32
    {w : Nat}
    {x : Double}
    {bits : BitVec w}
    (hWidth : w ≤ 32)
    (hBits : x.toBits? w = some bits) :
    BitVec.ofInt w x.toInt32 = bits := by
  rw [toBits?] at hBits
  split at hBits
  case isFalse => cases hBits
  case isTrue hFits =>
    rcases hFits with ⟨hFinite, hLow, hHigh⟩
    have hNumber : ¬ x.IsNaN := fun hNaN => hFinite hNaN.1
    have hPower : Int.pow 2 (w - 1) ≤ 2147483648 := by
      have hLe : w - 1 ≤ 31 := by omega
      change (2 : Int) ^ (w - 1) ≤ 2 ^ 31
      exact_mod_cast Nat.pow_le_pow_right
        (by decide : 0 < 2) hLe
    have hClamped : x.toInt32 = x.truncated := by
      rw [toInt32, if_neg hNumber]
      change max (-2147483648)
        (min x.truncated 2147483647) = _
      omega
    rw [hClamped]
    exact Option.some.inj hBits

end Double

namespace Datum

/- A number that is in range, if there is one. -/
def inRange : Option Datum → Except Undefined Datum
| some d => .ok d
| none => .error .conversionOutOfRange

/-
  A value of one type as a value of another.  A character is
  widened without its sign but counts as signed where it
  becomes a float; an integer is narrowed by dropping bits.
-/
def converted
    (source target : Ty)
    (d : Datum) : Except Undefined Datum :=
  if source = target then
    .ok d
  else
    match d, target with
    | .char x, .int => .ok (.int (.ofInt 32 x.toNat))
    | .char x, .float => .ok (.float (.ofInt x.toInt))
    | .int x, .char => .ok (.char (.ofInt 8 x.toInt))
    | .int x, .float => .ok (.float (.ofInt x.toInt))
    | .float x, .char => inRange ((x.toBits? 8).map .char)
    | .float x, .int => inRange ((x.toBits? 32).map .int)
    | _, _ => .error .illTyped

@[simp] theorem converted_self
    (t : Ty)
    (d : Datum) :
    d.converted t t = .ok d := by
  unfold converted
  rw [if_pos rfl]

end Datum

end Bracketry
