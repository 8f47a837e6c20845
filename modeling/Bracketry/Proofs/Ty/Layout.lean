import Bracketry.Ty
import Mathlib.Algebra.Ring.Nat
import Mathlib.Logic.ExistsUnique

/-
  This file shows that sizes are exact up to the limit, and
  that the members of a record lie side by side.

  A size is what it would be without any limit, cut at the
  limit once.  A cut size is only ever multiplied by a
  length, added to or rounded up, and none of these brings
  it below the limit again.  The same sizes and offsets come
  out of a computation in words of 64 bits.

  Main declarations:
    * `Ty.wordSize?` and `Record.wordOffsets?`
    * `Ty.wordSize?_eq` and `Record.layout_exact`
-/

namespace Bracketry

variable {size : Nat} {members : List (String × Ty)}

namespace Ty

mutual

/- The width of a value in bits, however great it is. -/
def exactSize : Ty → Nat
| .void => 0
| .bool => 1
| .char => 8
| .int => 32
| .float => 64
| .pointer _ => 64
| .array n t => n * ((t.exactSize + 7) / 8 * 8)
| .record _ _ members => exactSizes members

/- The width of members laid out one after the other. -/
def exactSizes : List (String × Ty) → Nat
| [] => 0
| (_, t) :: rest =>
    (t.exactSize + 7) / 8 * 8 + exactSizes rest

end

/- The number of bytes that a value is stored in. -/
def exactBytes (t : Ty) : Nat :=
  (t.exactSize + 7) / 8

/- The width of the storage of a value, in whole bytes. -/
def exactStorage (t : Ty) : Nat :=
  t.exactBytes * 8

end Ty

/- A cut size is cut behind rounding as well. -/
theorem wholeBytes_saturate
    (size : Nat) :
    wholeBytes (saturate size) =
      saturate ((size + 7) / 8 * 8) := by
  have hLimit : sizeLimit = 18446744073709551615 := rfl
  simp only [wholeBytes, saturate, hLimit]
  omega

theorem saturate_le
    (size : Nat) :
    saturate size ≤ sizeLimit :=
  Nat.min_le_right _ _

theorem saturate_of_le
    (hLe : size ≤ sizeLimit) :
    saturate size = size :=
  Nat.min_eq_left hLe

theorem saturate_of_ge
    (hGe : sizeLimit ≤ size) :
    saturate size = sizeLimit :=
  Nat.min_eq_right hGe

/-
  A length of zero makes the product zero on both sides; any
  other keeps a size that is at the limit there.
-/
theorem saturate_mul
    (size n : Nat) :
    saturate (saturate size * n) = saturate (n * size) := by
  rcases Nat.eq_zero_or_pos n with rfl | hPos
  · rw [Nat.mul_zero, Nat.zero_mul]
  by_cases hLe : size ≤ sizeLimit
  · rw [saturate_of_le hLe, Nat.mul_comm]
  · have hGe : sizeLimit ≤ size := Nat.le_of_not_le hLe
    have hCut : sizeLimit ≤ sizeLimit * n :=
      Nat.le_mul_of_pos_right _ hPos
    have hWhole : sizeLimit ≤ n * size :=
      Nat.le_trans hGe (Nat.le_mul_of_pos_left size hPos)
    rw [saturate_of_ge hGe, saturate_of_ge hCut,
      saturate_of_ge hWhole]

theorem saturate_add
    (a b : Nat) :
    saturate (saturate a + saturate b) =
      saturate (a + b) := by
  simp only [saturate]
  omega

namespace Ty

mutual

/- The size of a type is its exact size, cut. -/
theorem apparentSize_eq :
    ∀ t : Ty, t.apparentSize = saturate t.exactSize
| .primitive kind => by cases kind <;> rfl
| .pointer _ => rfl
| .array n t => by
    rw [apparentSize, exactSize, apparentSize_eq t,
      wholeBytes_saturate, saturate_mul]
| .record _ _ members => membersSize_eq members

/- So is the size of members. -/
theorem membersSize_eq :
    ∀ members : List (String × Ty),
      membersSize members = saturate (exactSizes members)
| [] => rfl
| (_, t) :: rest => by
    rw [membersSize, exactSizes, apparentSize_eq t,
      wholeBytes_saturate,
      membersSize_eq rest, saturate_add]

end

theorem storageSize_eq
    (t : Ty) :
    t.storageSize = saturate t.exactStorage := by
  rw [storageSize, apparentSize_eq, wholeBytes_saturate,
    exactStorage, exactBytes]

/- The storage of a value is a row of bytes. -/
theorem storageSize_div
    {t : Ty}
    (hFits : t.exactStorage ≤ sizeLimit) :
    t.storageSize / 8 = t.exactBytes := by
  rw [storageSize_eq, saturate_of_le hFits, exactStorage,
    Nat.mul_div_cancel _ (Nat.succ_pos 7)]

/- The members of a record add up to the record. -/
theorem exactSizes_eq_sum
    (members : List (String × Ty)) :
    exactSizes members =
      (members.map fun m => m.2.exactBytes).sum * 8 := by
  induction members with
  | nil => rfl
  | cons m rest ih =>
      rw [exactSizes, ih, List.map_cons, List.sum_cons,
        Nat.add_mul, exactBytes]

/- No member is greater than the record. -/
theorem exactStorage_le_exactSizes
    {m : String × Ty}
    (hMem : m ∈ members) :
    m.2.exactStorage ≤ exactSizes members := by
  induction members with
  | nil => cases hMem
  | cons first rest ih =>
      rw [exactSizes]
      rcases List.mem_cons.mp hMem with rfl | hRest
      · exact Nat.le_add_right _ _
      · exact Nat.le_add_left_of_le (ih hRest)

end Ty

------------------------------------------------------------
-- Places of Members
------------------------------------------------------------

namespace Record

variable {byte : Nat}

/- Whether a byte of a record belongs to a member. -/
def Covers
    (r : Record)
    (i byte : Nat) : Prop :=
  ∃ start m, r.offsets[i]? = some start ∧
    r.members[i]? = some m ∧
    start ≤ byte ∧ byte < start + m.2.storageSize / 8

/- A member starts where those before it end. -/
theorem offsetsFrom_eq
    {start : Nat}
    (hMembers : Ty.exactSizes members ≤ sizeLimit)
    (hEnd : start + (members.map fun m =>
      m.2.exactBytes).sum ≤ sizeLimit) :
    offsetsFrom start members =
      (List.range members.length).map fun i =>
        start + ((members.take i).map fun m =>
          m.2.exactBytes).sum := by
  induction members generalizing start with
  | nil => rfl
  | cons m rest ih =>
      have hFits : m.2.exactStorage ≤ sizeLimit :=
        Nat.le_trans
          (Ty.exactStorage_le_exactSizes List.mem_cons_self)
          hMembers
      have hRest : Ty.exactSizes rest ≤ sizeLimit := by
        rw [Ty.exactSizes] at hMembers
        exact Nat.le_of_add_left_le hMembers
      rw [List.map_cons, List.sum_cons, ← Nat.add_assoc]
        at hEnd
      have hNext : start + m.2.exactBytes ≤ sizeLimit :=
        Nat.le_of_add_right_le hEnd
      rw [offsetsFrom, Ty.storageSize_div hFits,
        saturate_of_le hNext,
        ih hRest hEnd, List.length_cons,
          List.range_succ_eq_map,
        List.map_cons, List.map_map]
      refine congrArg (start :: ·)
        (List.map_congr_left fun i _ => ?_)
      change _ =
        start + (((m :: rest).take (i + 1)).map _).sum
      rw [List.take_succ_cons, List.map_cons, List.sum_cons,
        Nat.add_assoc]

variable {r : Record}

theorem offsets_eq
    (hFits : r.ty.exactSize ≤ sizeLimit) :
    r.offsets =
      (List.range r.members.length).map fun i =>
        ((r.members.take i).map fun m =>
          m.2.exactBytes).sum := by
  have hMembers : Ty.exactSizes r.members ≤ sizeLimit :=
    hFits
  have hSum := Ty.exactSizes_eq_sum r.members
  have hEnd :
      0 + (r.members.map fun m => m.2.exactBytes).sum ≤
        sizeLimit := by
    omega
  rw [offsets, offsetsFrom_eq hMembers hEnd]
  simp only [Nat.zero_add]

/- A record takes as many bytes as its members together. -/
theorem storageSize_div
    (hFits : r.ty.exactSize ≤ sizeLimit) :
    r.ty.storageSize / 8 =
      (r.members.map fun m => m.2.exactBytes).sum := by
  have hSum : r.ty.exactSize =
      (r.members.map fun m => m.2.exactBytes).sum * 8 :=
    Ty.exactSizes_eq_sum r.members
  have hBytes : r.ty.exactBytes =
      (r.members.map fun m => m.2.exactBytes).sum := by
    rw [Ty.exactBytes, hSum]
    omega
  rw [Ty.storageSize_div, hBytes]
  rwa [Ty.exactStorage, hBytes, ← hSum]

/- A number below a sum falls into one part. -/
theorem existsUnique_part
    {sizes : List Nat}
    {p : Nat}
    (hBelow : p < sizes.sum) :
    ∃! i, ∃ size, sizes[i]? = some size ∧
      (sizes.take i).sum ≤ p ∧
      p < (sizes.take i).sum + size := by
  induction sizes generalizing p with
  | nil => cases hBelow
  | cons size rest ih =>
      rw [List.sum_cons] at hBelow
      by_cases hFirst : p < size
      · refine ⟨0, ⟨size, rfl, Nat.zero_le _, ?_⟩, ?_⟩
        · rwa [List.take_zero, List.sum_nil, Nat.zero_add]
        · rintro (_ | i) ⟨other, -, hStart, -⟩
          · rfl
          · rw [List.take_succ_cons, List.sum_cons]
              at hStart
            omega
      · -- the parts behind the first one, counted from its
        -- end
        rcases ih (p := p - size) (by omega) with
          ⟨i, ⟨other, hAt, hStart, hEnd⟩, hUnique⟩
        refine ⟨i + 1, ⟨other, hAt, ?_, ?_⟩, ?_⟩
        · rw [List.take_succ_cons, List.sum_cons]
          omega
        · rw [List.take_succ_cons, List.sum_cons]
          omega
        · rintro (_ | j) ⟨another, hAt', hStart', hEnd'⟩
          · cases hAt'
            rw [List.take_zero, List.sum_nil] at hEnd'
            omega
          · rw [List.take_succ_cons, List.sum_cons]
              at hStart' hEnd'
            rw [hUnique j
              ⟨another, hAt', by omega, by omega⟩]

/- The bytes of a member are told by the sizes. -/
theorem covers_iff
    (hFits : r.ty.exactSize ≤ sizeLimit)
    (i byte : Nat) :
    r.Covers i byte ↔
      ∃ size, (r.members.map fun m => m.2.exactBytes)[i]? =
        some size ∧
          ((r.members.map fun m => m.2.exactBytes).take
            i).sum ≤ byte ∧
        byte <
          ((r.members.map fun m => m.2.exactBytes).take
            i).sum + size := by
  have hStored : ∀ m ∈ r.members, m.2.storageSize / 8 =
    m.2.exactBytes :=
    fun m hMem => Ty.storageSize_div
      (Nat.le_trans (Ty.exactStorage_le_exactSizes hMem)
        hFits)
  rw [Covers, offsets_eq hFits, List.getElem?_map,
    List.getElem?_map, ← List.map_take]
  constructor
  · rintro ⟨start, m, hOffset, hMember, hStart, hEnd⟩
    have hIndex : i < r.members.length :=
      (List.getElem?_eq_some_iff.mp hMember).1
    rw [List.getElem?_range hIndex] at hOffset
    cases hOffset
    rw [hStored m (List.mem_of_getElem? hMember)] at hEnd
    exact ⟨_, by rw [hMember]; rfl, hStart, hEnd⟩
  · rintro ⟨size, hSize, hStart, hEnd⟩
    rcases Option.map_eq_some_iff.mp hSize with
      ⟨m, hMember, rfl⟩
    have hIndex : i < r.members.length :=
      (List.getElem?_eq_some_iff.mp hMember).1
    refine ⟨_, m, ?_, hMember, hStart, ?_⟩
    · rw [List.getElem?_range hIndex]
      rfl
    · rwa [hStored m (List.mem_of_getElem? hMember)]

/- Every byte belongs to one member. -/
theorem covers_unique
    (hFits : r.ty.exactSize ≤ sizeLimit)
    (hByte : byte < r.ty.storageSize / 8) :
    ∃! i, r.Covers i byte := by
  simp only [covers_iff hFits]
  rw [storageSize_div hFits] at hByte
  exact existsUnique_part hByte

/- The bytes of a member are bytes of the record. -/
theorem lt_of_covers
    {i byte : Nat}
    (hFits : r.ty.exactSize ≤ sizeLimit)
    (hCovers : r.Covers i byte) :
    byte < r.ty.storageSize / 8 := by
  rcases (covers_iff hFits i byte).mp hCovers with
    ⟨size, hAt, -, hEnd⟩
  rw [storageSize_div hFits]
  rcases List.getElem?_eq_some_iff.mp hAt with ⟨hIndex, rfl⟩
  rw [← List.take_append_drop i
    (r.members.map fun m => m.2.exactBytes),
    List.sum_append, List.drop_eq_getElem_cons hIndex,
      List.sum_cons]
  omega

/- Offsets never decrease, cut or not. -/
theorem offsetsFrom_sorted
    {start : Nat}
    (hStart : start ≤ sizeLimit)
    (members : List (String × Ty)) :
    (start :: offsetsFrom start members).Pairwise
      (· ≤ ·) := by
  induction members generalizing start with
  | nil => exact List.pairwise_singleton _ _
  | cons m rest ih =>
      have hNext :
          start ≤ saturate (start + m.2.storageSize / 8) :=
        Nat.le_min.mpr ⟨Nat.le_add_right _ _, hStart⟩
      have hBehind :=
        ih (saturate_le (start + m.2.storageSize / 8))
      rcases List.pairwise_cons.mp hBehind with
        ⟨hLater, hRest⟩
      have hAll : ∀ offset ∈ offsetsFrom _ rest, start ≤
        offset :=
        fun offset hMem =>
          Nat.le_trans hNext (hLater offset hMem)
      rw [offsetsFrom, List.pairwise_cons,
        List.pairwise_cons, List.forall_mem_cons]
      exact ⟨⟨Nat.le_refl _, hAll⟩, hAll, hRest⟩

theorem offsets_sorted
    (r : Record) :
    r.offsets.Pairwise (· ≤ ·) :=
  (List.pairwise_cons.mp
    (offsetsFrom_sorted (Nat.zero_le sizeLimit)
      r.members)).2

end Record

------------------------------------------------------------
-- Words
------------------------------------------------------------

namespace Word

/- A number as a word of 64 bits, if it is small enough. -/
def ofNat? (n : Nat) : Option UInt64 :=
  if n ≤ sizeLimit then some (.ofNat n) else none

/- A sum that stops at the greatest word. -/
def saturatingAdd (a b : UInt64) : UInt64 :=
  .ofNat (saturate (a.toNat + b.toNat))

/- A product that stops at the greatest word. -/
def saturatingMul (a b : UInt64) : UInt64 :=
  .ofNat (saturate (a.toNat * b.toNat))

/- A sum, if it is small enough for a word. -/
def add? (a b : UInt64) : Option UInt64 :=
  ofNat? (a.toNat + b.toNat)

/- A quotient, unless the divisor is zero. -/
def div? (a b : UInt64) : Option UInt64 :=
  if b = 0 then none else some (a / b)

/- A remainder, unless the divisor is zero. -/
def mod? (a b : UInt64) : Option UInt64 :=
  if b = 0 then none else some (a % b)

/- A quotient that is rounded up. -/
def ceilDiv? (a b : UInt64) : Option UInt64 := do
  let quotient ← div? a b
  let remainder ← mod? a b
  if remainder = 0 then return quotient else add? quotient 1

/- A size that is rounded up to whole bytes. -/
def wholeBytes? (size : UInt64) : Option UInt64 := do
  let bytes ← ceilDiv? size 8
  return saturatingMul bytes 8

theorem toNat_ofNat_of_le
    {n : Nat}
    (hLe : n ≤ sizeLimit) :
    (UInt64.ofNat n).toNat = n := by
  have hLimit : sizeLimit = 18446744073709551615 := rfl
  rw [UInt64.toNat_ofNat']
  omega

theorem toNat_saturatingAdd
    (a b : UInt64) :
    (saturatingAdd a b).toNat =
      saturate (a.toNat + b.toNat) :=
  toNat_ofNat_of_le (saturate_le _)

theorem toNat_saturatingMul
    (a b : UInt64) :
    (saturatingMul a b).toNat =
      saturate (a.toNat * b.toNat) :=
  toNat_ofNat_of_le (saturate_le _)

/- One more than an eighth of a word is a word. -/
theorem ceilDiv?_eight
    (size : UInt64) :
    ∃ bytes, ceilDiv? size 8 = some bytes ∧
      bytes.toNat = (size.toNat + 7) / 8 := by
  have hSteps : ceilDiv? size 8 =
      if size % 8 = 0 then some (size / 8) else
        add? (size / 8) 1 := rfl
  have hQuotient : (size / 8).toNat = size.toNat / 8 :=
    UInt64.toNat_div _ _
  have hRemainder : (size % 8).toNat = size.toNat % 8 :=
    UInt64.toNat_mod _ _
  by_cases hWhole : size % 8 = 0
  · have hZero : size.toNat % 8 = 0 := by
      rw [← hRemainder, hWhole]
      rfl
    refine ⟨size / 8, by rw [hSteps, if_pos hWhole], ?_⟩
    rw [hQuotient]
    omega
  · have hPos : size.toNat % 8 ≠ 0 := by
      intro hZero
      exact hWhole
        (UInt64.toNat_inj.mp (hRemainder.trans hZero))
    have hSmall : size.toNat / 8 + 1 ≤ sizeLimit := by
      have hSize : size.toNat < 18446744073709551616 :=
        size.toNat_lt
      have hLimit : sizeLimit = 18446744073709551615 := rfl
      omega
    refine ⟨.ofNat (size.toNat / 8 + 1), ?_, ?_⟩
    · rw [hSteps, if_neg hWhole, add?, hQuotient]
      exact if_pos hSmall
    · rw [toNat_ofNat_of_le hSmall]
      omega

theorem wholeBytes?_eq
    (size : UInt64) :
    ∃ storage, wholeBytes? size = some storage ∧
      storage.toNat = wholeBytes size.toNat := by
  rcases ceilDiv?_eight size with ⟨bytes, hBytes, hNumber⟩
  refine ⟨saturatingMul bytes 8, ?_, ?_⟩
  · rw [wholeBytes?, hBytes]
    rfl
  · rw [toNat_saturatingMul, hNumber]
    rfl

end Word

namespace Ty

mutual

/- All lengths that a size depends on are words. -/
def HasWordLengths : Ty → Prop
| .array n t => n ≤ sizeLimit ∧ t.HasWordLengths
| .record _ _ members => AllHaveWordLengths members
| _ => True

/- The same of the types of members. -/
def AllHaveWordLengths : List (String × Ty) → Prop
| [] => True
| (_, t) :: rest =>
    t.HasWordLengths ∧ AllHaveWordLengths rest

end

mutual

/- The size of a type, computed in words. -/
def wordSize? : Ty → Option UInt64
| .void => some 0
| .bool => some 1
| .char => some 8
| .int => some 32
| .float => some 64
| .pointer _ => some 64
| .array n t => do
    let size ← t.wordSize?
    let storage ← Word.wholeBytes? size
    let length ← Word.ofNat? n
    return Word.saturatingMul storage length
| .record _ _ members => wordSizes? 0 members

/- The size of members behind a size, computed in words. -/
def wordSizes? : UInt64 → List (String × Ty) → Option UInt64
| total, [] => some total
| total, (_, t) :: rest => do
    let size ← t.wordSize?
    let storage ← Word.wholeBytes? size
    wordSizes? (Word.saturatingAdd total storage) rest

end

/- The storage of a type, computed in words. -/
def wordStorage? (t : Ty) : Option UInt64 := do
  let size ← t.wordSize?
  Word.wholeBytes? size

mutual

/- In words, the size of a type comes out as it is. -/
theorem wordSize?_eq :
    ∀ t : Ty, t.HasWordLengths →
      ∃ size, t.wordSize? = some size ∧
        size.toNat = t.apparentSize
| .primitive kind, _ => by
  cases kind <;> exact ⟨_, rfl, rfl⟩
| .pointer _, _ => ⟨_, rfl, rfl⟩
| .array n t, hLengths => by
    rw [HasWordLengths] at hLengths
    rcases wordSize?_eq t hLengths.2 with
      ⟨size, hSize, hNumber⟩
    rcases Word.wholeBytes?_eq size with
      ⟨storage, hStorage, hWhole⟩
    have hLength : Word.ofNat? n = some (.ofNat n) :=
      if_pos hLengths.1
    refine ⟨Word.saturatingMul storage (.ofNat n), ?_, ?_⟩
    · simp only [wordSize?, hSize, Option.bind_eq_bind,
        Option.bind_some, hStorage, hLength]
      rfl
    · rw [Word.toNat_saturatingMul, hWhole, hNumber,
        Word.toNat_ofNat_of_le hLengths.1, apparentSize]
| .record _ _ members, hLengths => by
    rw [HasWordLengths] at hLengths
    rcases wordSizes?_eq members 0 hLengths with
      ⟨size, hSize, hNumber⟩
    refine ⟨size, by rw [wordSize?, hSize], ?_⟩
    rw [hNumber, UInt64.toNat_zero, Nat.zero_add,
      apparentSize, membersSize_eq,
        saturate_of_le (saturate_le _)]

/- So do the sizes of members, added up in order. -/
theorem wordSizes?_eq :
    ∀ (members : List (String × Ty)) (total : UInt64),
      AllHaveWordLengths members →
        ∃ size, wordSizes? total members = some size ∧
          size.toNat =
            saturate (total.toNat + membersSize members)
| [], total, _ => by
    have hTotal : total.toNat ≤ sizeLimit :=
      Nat.le_of_lt_succ total.toNat_lt
    exact ⟨total, rfl, (saturate_of_le hTotal).symm⟩
| (_, t) :: rest, total, hLengths => by
    rw [AllHaveWordLengths] at hLengths
    rcases wordSize?_eq t hLengths.1 with
      ⟨size, hSize, hNumber⟩
    rcases Word.wholeBytes?_eq size with
      ⟨storage, hStorage, hWhole⟩
    rcases wordSizes?_eq rest
      (Word.saturatingAdd total storage)
      hLengths.2 with ⟨whole, hRest, hSum⟩
    refine ⟨whole, ?_, ?_⟩
    · simp only [wordSizes?, hSize, Option.bind_eq_bind,
        Option.bind_some, hStorage, hRest]
    · -- cutting after every member is cutting once
      rw [hSum, Word.toNat_saturatingAdd, hWhole, hNumber,
        membersSize]
      simp only [saturate]
      omega

end

theorem wordStorage?_eq
    {t : Ty}
    (hLengths : t.HasWordLengths) :
    ∃ storage, t.wordStorage? = some storage ∧
      storage.toNat = t.storageSize := by
  rcases wordSize?_eq t hLengths with ⟨size, hSize, hNumber⟩
  rcases Word.wholeBytes?_eq size with
    ⟨storage, hStorage, hWhole⟩
  refine ⟨storage, ?_, ?_⟩
  · rw [wordStorage?, hSize]
    exact hStorage
  · rw [hWhole, hNumber, storageSize]

end Ty

namespace Record

/- Byte offsets of members, computed in words. -/
def wordOffsetsFrom? :
    UInt64 → List (String × Ty) → Option (List UInt64)
| _, [] => some []
| start, (_, t) :: rest => do
    let storage ← t.wordStorage?
    let bytes ← Word.div? storage 8
    let behind ← wordOffsetsFrom?
      (Word.saturatingAdd start bytes) rest
    return start :: behind

/- Byte offset of each member, computed in words. -/
def wordOffsets? (r : Record) : Option (List UInt64) :=
  wordOffsetsFrom? 0 r.members

/- In words, the offsets come out as they are. -/
theorem wordOffsetsFrom?_eq
    (start : UInt64)
    (hLengths : Ty.AllHaveWordLengths members) :
    ∃ offsets, wordOffsetsFrom? start members =
      some offsets ∧ offsets.map UInt64.toNat =
        offsetsFrom start.toNat members := by
  induction members generalizing start with
  | nil => exact ⟨[], rfl, rfl⟩
  | cons m rest ih =>
      rw [Ty.AllHaveWordLengths] at hLengths
      rcases Ty.wordStorage?_eq hLengths.1 with
        ⟨storage, hStorage, hNumber⟩
      have hBytes : Word.div? storage 8 =
        some (storage / 8) := rfl
      rcases ih (Word.saturatingAdd start (storage / 8))
        hLengths.2 with
        ⟨behind, hBehind, hOffsets⟩
      refine ⟨start :: behind, ?_, ?_⟩
      · simp only [wordOffsetsFrom?, hStorage, hBytes,
          hBehind, Option.bind_eq_bind, Option.bind_some]
        rfl
      · have hEighth : (storage / 8).toNat =
            m.2.storageSize / 8 := by
          rw [UInt64.toNat_div, hNumber]
          rfl
        rw [List.map_cons, hOffsets,
          Word.toNat_saturatingAdd, hEighth, offsetsFrom]

/-
  Sizes are the exact sizes, cut once at the greatest word.
  In a record that is small enough, each member starts where
  those before it end, and every byte belongs to exactly one
  member.  In any record the offsets go up.  Computed in
  words, sizes and offsets come out as they are, without a
  sum that is too large for a word and without dividing by
  zero.
-/
theorem layout_exact :
    (∀ t : Ty,
      t.apparentSize =
        min t.exactSize 18446744073709551615 ∧
        t.storageSize =
          min t.exactStorage 18446744073709551615) ∧
    (∀ r : Record, r.ty.exactSize < 18446744073709551616 →
      r.offsets =
          ((List.range r.members.length).map fun i =>
            ((r.members.take i).map fun m =>
              m.2.exactStorage / 8).sum) ∧
        (∀ byte < r.ty.storageSize / 8, ∃! i,
          r.Covers i byte) ∧
        ∀ i byte, r.Covers i byte →
          byte < r.ty.storageSize / 8) ∧
    (∀ r : Record, r.offsets.Pairwise (· ≤ ·)) ∧
    (∀ t : Ty, t.HasWordLengths →
      t.wordSize?.map UInt64.toNat = some t.apparentSize ∧
        t.wordStorage?.map UInt64.toNat =
          some t.storageSize) ∧
    ∀ r : Record, r.ty.HasWordLengths →
      r.wordOffsets?.map (·.map UInt64.toNat) =
        some r.offsets := by
  refine ⟨?_, ?_, offsets_sorted, ?_, ?_⟩
  · intro t
    exact ⟨t.apparentSize_eq, t.storageSize_eq⟩
  · intro r hSize
    have hFits : r.ty.exactSize ≤ sizeLimit :=
      Nat.le_of_lt_succ hSize
    refine ⟨?_, fun byte => covers_unique hFits,
      fun i byte => lt_of_covers hFits⟩
    simp only [Ty.exactStorage, Nat.mul_div_cancel _
      (Nat.succ_pos 7)]
    exact offsets_eq hFits
  · intro t hLengths
    rcases Ty.wordSize?_eq t hLengths with
      ⟨size, hSize, hNumber⟩
    rcases Ty.wordStorage?_eq hLengths with
      ⟨storage, hStorage, hWhole⟩
    rw [hSize, hStorage]
    exact ⟨congrArg some hNumber, congrArg some hWhole⟩
  · intro r hLengths
    have hMembers : Ty.AllHaveWordLengths r.members := by
      rwa [ty, Ty.HasWordLengths] at hLengths
    rcases wordOffsetsFrom?_eq 0 hMembers with
      ⟨offsets, hOffsets, hNumbers⟩
    rw [wordOffsets?, hOffsets]
    exact congrArg some hNumbers

/- A member of no size and one of many rows. -/
def sampleRows : Record where
  serial := 1
  name := "Rows"
  members :=
    [("flag", .bool), ("none", .record 0 "Empty" []),
      ("rows", .array 3 (.array 5 .bool)), ("sum", .float)]
  line := 1

theorem sampleRows_layout :
    sampleRows.ty.exactSize < 18446744073709551616 ∧
      sampleRows.offsets = [0, 1, 1, 16] ∧
      (∃! i, sampleRows.Covers i 9) ∧
      sampleRows.ty.HasWordLengths ∧
      sampleRows.ty.wordSize?.map UInt64.toNat = some 192 ∧
      sampleRows.wordOffsets?.map (·.map UInt64.toNat) =
        some [0, 1, 1, 16] := by
  rcases layout_exact with ⟨-, hPlaces, -, hSizes, hOffsets⟩
  have hSize : sampleRows.ty.exactSize <
    18446744073709551616 := by decide
  have hLengths : sampleRows.ty.HasWordLengths := by
    simp only [sampleRows, ty, Ty.HasWordLengths,
      Ty.AllHaveWordLengths]
    decide
  rcases hPlaces sampleRows hSize with ⟨hExact, hUnique, -⟩
  exact ⟨hSize, hExact, hUnique 9 (by decide), hLengths,
    (hSizes _ hLengths).1, hOffsets sampleRows hLengths⟩

end Record

end Bracketry
