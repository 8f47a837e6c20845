import Bracketry.Proofs.Program.Liveness
import Bracketry.Proofs.Program.Locality
import Bracketry.Proofs.Program.Storage
import Mathlib.Data.List.Nodup

/-
  This file bounds the labels and temporaries of a program
  by the length of its text.

  A token pays for sixteen of each, and takes at least one
  character.  So in 32 bits the counters do not wrap for any
  text of less than 2^27 characters, and what is handed out
  stays fresh.
-/

namespace Bracketry

/- Numbers below 2^32 stay different in 32 bits. -/
theorem eq_of_ofNat_eq
    {m n : Nat}
    (hm : m < UInt32.size)
    (hn : n < UInt32.size)
    (hEq : UInt32.ofNat m = UInt32.ofNat n) :
    m = n := by
  have hSame := congrArg UInt32.toNat hEq
  rwa [UInt32.toNat_ofNat', UInt32.toNat_ofNat',
    Nat.mod_eq_of_lt hm, Nat.mod_eq_of_lt hn] at hSame

theorem nodup_ofNat
    {α : Type}
    {items : List α}
    {number : α → Nat}
    (hNodup : (items.map number).Nodup)
    (hSmall : ∀ x ∈ items, number x < UInt32.size) :
    (items.map fun x => UInt32.ofNat (number x)).Nodup := by
  have hMap : (items.map fun x => UInt32.ofNat (number x)) =
      (items.map number).map UInt32.ofNat := by
    rw [List.map_map]
    rfl
  rw [hMap]
  refine List.Nodup.map_on ?_ hNodup
  intro m hm n hn hEq
  rcases List.mem_map.mp hm with ⟨x, hx, rfl⟩
  rcases List.mem_map.mp hn with ⟨y, hy, rfl⟩
  exact eq_of_ofNat_eq (hSmall x hx) (hSmall y hy) hEq

namespace Program

/- The state in which writing a program ends. -/
def written (p : Program) : Builder :=
  (FunctionDef.lowerAll p.functions).after .empty

variable {source : String} {p : Program}

/- The characters of a text pay for writing its program. -/
theorem cost_le_of_parse
    (hParse : Program.parse source = .ok p) :
    (p.functions.map FunctionDef.cost).sum ≤
      16 * source.length := by
  have hReads := TokenStream.reads_ofText source
  rcases exists_read hParse with ⟨s, hRead⟩
  have hTracks : Parse.Tracks False _ whole whole
      (.ofStream (.ofText source)) s := whole_tracks
  have hPaid := (hTracks.ok False.elim p s hRead).2.1.paid
  have hTokens : (Parser.ofStream (.ofText source)).left ≤
      source.length := by
    rw [← String.length_toList]
    exact hReads.length_le
  omega

/- Writing hands out no more than the text pays for. -/
theorem written_spends
    (hParse : Program.parse source = .ok p) :
    Builder.Spends (16 * (source.length + 1)) .empty
      p.written := by
  have hCost := cost_le_of_parse hParse
  exact (FunctionDef.lowerAll_spends p.functions
    .empty).weaken (by omega)

/-
  Along the way to a state with small counters, they are
  small and what is handed out is not handed out again.
-/
theorem fresh_of_reaches
    {b last : Builder}
    (hLabels : last.nextLabel < UInt32.size)
    (hTemporaries : last.nextTemporary < UInt32.size)
    (hReaches : b.Reaches last) :
    b.nextLabel < UInt32.size ∧
      b.nextTemporary < UInt32.size ∧
      (∀ b', b.reserve.2.Reaches b' → b'.Reaches last →
        UInt32.ofNat b'.reserve.1.number ≠
          UInt32.ofNat b.reserve.1.number) ∧
      ∀ b', b.number.2.Reaches b' → b'.Reaches last →
        UInt32.ofNat b'.number.1 ≠
          UInt32.ofNat b.number.1 := by
  have hSmall : ∀ {b' : Builder}, b'.Reaches last →
      b'.nextLabel < UInt32.size ∧
        b'.nextTemporary < UInt32.size := by
    intro b' hBefore
    rcases hBefore.spends with ⟨_, hSpends⟩
    exact ⟨hSpends.labels.1.trans_lt hLabels,
      hSpends.temporaries.1.trans_lt hTemporaries⟩
  refine ⟨(hSmall hReaches).1, (hSmall hReaches).2, ?_, ?_⟩
  · intro b' hAfter hBefore hEq
    rcases hAfter.spends with ⟨_, hSpends⟩
    have hLess : b.nextLabel + 1 ≤ b'.nextLabel :=
      hSpends.labels.1
    have hSame : b'.nextLabel = b.nextLabel :=
      eq_of_ofNat_eq (hSmall hBefore).1 (hSmall hReaches).1
        hEq
    omega
  · intro b' hAfter hBefore hEq
    rcases hAfter.spends with ⟨_, hSpends⟩
    have hLess : b.nextTemporary + 1 ≤ b'.nextTemporary :=
      hSpends.temporaries.1
    have hSame : b'.nextTemporary = b.nextTemporary :=
      eq_of_ofNat_eq (hSmall hBefore).2 (hSmall hReaches).2
        hEq
    omega

/- In the code no number is used twice in 32 bits. -/
theorem nodup_of_small
    {listing : Listing}
    (hLower : p.lower = .ok listing)
    (hLabels : p.written.nextLabel < UInt32.size)
    (hTemporaries : p.written.nextTemporary < UInt32.size) :
    ((listing.definitions.flatMap fun d =>
        Line.labels d.lines).map
        fun l => UInt32.ofNat l.number).Nodup ∧
      ((listing.definitions.flatMap fun d =>
        Line.dests d.lines).map
        fun n => UInt32.ofNat n).Nodup := by
  rcases lower_eq_ok hLower with ⟨last, hAll⟩
  have hLast : p.written = last := by
    unfold written Build.after
    rw [hAll]
  rw [hLast] at hLabels hTemporaries
  refine ⟨nodup_ofNat ?_ ?_, nodup_ofNat ?_ ?_⟩
  · refine (FunctionDef.labels_of_lowerAll hAll).map ?_
    rintro ⟨m⟩ ⟨n⟩ rfl
    rfl
  · exact fun l hMem =>
      ((FunctionDef.label_numbers_of_lowerAll hAll).2.2 l
        hMem).2.trans hLabels
  · rw [List.map_id']
    exact FunctionDef.dests_of_lowerAll hAll
  · exact fun n hMem =>
      ((FunctionDef.dest_numbers_of_lowerAll hAll).2.2 n
        hMem).2.trans hTemporaries

/-
  A program that was read from `n` characters hands out at
  most `16 * (n + 1)` labels and as many temporaries while
  it is written, also if that ends in a fault.  Below 2^27
  characters no counter leaves 32 bits in any state on the
  way, whatever is handed out differs from all that is
  handed out later, and in the code all labels and all
  temporaries are different.
-/
theorem counters_bounded
    (hParse : Program.parse source = .ok p) :
    Builder.empty.Reaches p.written ∧
      p.written.nextLabel ≤
        Builder.empty.nextLabel + 16 * (source.length + 1) ∧
      p.written.nextTemporary ≤
        Builder.empty.nextTemporary + 16 *
          (source.length + 1) ∧
      (source.length < Nat.pow 2 27 →
        (∀ b, Builder.empty.Reaches b →
          b.Reaches p.written →
          b.nextLabel < UInt32.size ∧
            b.nextTemporary < UInt32.size ∧
            (∀ b', b.reserve.2.Reaches b' →
              b'.Reaches p.written →
              UInt32.ofNat b'.reserve.1.number ≠
                UInt32.ofNat b.reserve.1.number) ∧
            ∀ b', b.number.2.Reaches b' →
              b'.Reaches p.written →
              UInt32.ofNat b'.number.1 ≠
                UInt32.ofNat b.number.1) ∧
        ∀ listing, p.lower = .ok listing →
          ((listing.definitions.flatMap fun d =>
              Line.labels d.lines).map
              fun l => UInt32.ofNat l.number).Nodup ∧
            ((listing.definitions.flatMap fun d =>
              Line.dests d.lines).map
              fun n => UInt32.ofNat n).Nodup) := by
  have hSpends := written_spends hParse
  refine ⟨FunctionDef.lowerAll_reaches p.functions .empty,
    hSpends.labels.2, hSpends.temporaries.2, ?_⟩
  intro hShort
  have hLabels : p.written.nextLabel < UInt32.size := by
    refine hSpends.labels.2.trans_lt ?_
    change 1 + 16 * (source.length + 1) < 4294967296
    change source.length < 134217728 at hShort
    omega
  have hTemporaries : p.written.nextTemporary <
      UInt32.size := by
    refine hSpends.temporaries.2.trans_lt ?_
    change 1 + 16 * (source.length + 1) < 4294967296
    change source.length < 134217728 at hShort
    omega
  refine ⟨?_, ?_⟩
  · intro b _ hReaches
    exact fresh_of_reaches hLabels hTemporaries hReaches
  · intro listing hLower
    exact nodup_of_small hLower hLabels hTemporaries

theorem sample_counters_bounded :
    ∃ p listing,
      Program.parse sample = .ok p ∧ p.lower = .ok listing ∧
      sample.length < Nat.pow 2 27 ∧
      p.written.nextLabel ≤
        Builder.empty.nextLabel + 16 * (sample.length + 1) ∧
      p.written.nextTemporary ≤
        Builder.empty.nextTemporary + 16 *
          (sample.length + 1) ∧
      ((listing.definitions.flatMap fun d =>
          Line.labels d.lines).map
          fun l => UInt32.ofNat l.number).Nodup ∧
        ((listing.definitions.flatMap fun d =>
          Line.dests d.lines).map
          fun n => UInt32.ofNat n).Nodup := by
  rcases sample_lowers with ⟨p, listing, hParse, hLower, -⟩
  rcases counters_bounded hParse with
    ⟨-, hLabels, hTemporaries, hFresh⟩
  have hShort : sample.length < Nat.pow 2 27 := by
    decide +kernel
  exact ⟨p, listing, hParse, hLower, hShort, hLabels,
    hTemporaries, (hFresh hShort).2 listing hLower⟩

end Program

end Bracketry
