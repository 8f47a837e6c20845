import Bracketry.Proofs.Program.Blocks

/-
  This file shows that in a compiled program each temporary
  is defined once, and on every path before it is used.

  The code of an operand leaves nowhere, so what it computes
  is there for all code behind it.  The code of a statement
  uses its own temporaries only.
-/

namespace Bracketry

section

open Build (nothing)
open Instruction (usesOnly_iff)

theorem Lowering.merge_flows
    {slots : List String}
    {branches : Choice}
    (hBranches :
      ∀ onTrue onFalse : Label,
        Build.Flows ⟨slots, false⟩ [onTrue, onFalse] [] []
          nothing (branches (some onTrue) (some onFalse)))
    (live : List Nat) :
    Build.Flows ⟨slots, false⟩ [] [] live Value.temporaries
      (merge branches) := by
  have hMerge :
      Build.Flows ⟨slots, false⟩ [] [] [] Value.temporaries
        (merge branches) := by
    intro b v b' hLive hKnown hOk
    rcases merge_eq_ok hOk with ⟨b₁, hChoice, rfl, rfl⟩
    have hKnown₁ : Builder.Emits.Known [b.reserve.1] []
      b.reserve.2 :=
      hKnown.reserve (by simp) (by simp)
    have hKnown₂ :
        Builder.Emits.Known
          [b.reserve.1, b.reserve.2.reserve.1] []
          b.reserve.2.reserve.2 :=
      hKnown₁.reserve (by grind) (by simp)
    have hKnown₃ :
        Builder.Emits.Known
          [b.reserve.1, b.reserve.2.reserve.1] []
          b.reserve.2.reserve.2.reserve.2 :=
      hKnown₂.reserve (fun _ hMem => .inr hMem) (by simp)
    rcases hBranches _ _ (by simp [Builder.Numbered])
      hKnown₃ hChoice with
      ⟨code, hEmits, hFlow, -⟩
    exact ⟨_, .merge rfl rfl rfl hEmits,
      hFlow.join rfl rfl rfl,
      .join hEmits hFlow (by simp [Builder.Numbered]) rfl⟩
  exact hMerge.weaken (by simp)

/- A step defines temporaries before it uses them. -/
def Build.Discipline.flows : Build.Discipline where
  Holds := fun reach given own _ live result x =>
    Flows reach given own live result x
  pure := .pure
  throw := .throw
  afford := fun hFirst _ => hFirst
  supplyOf := fun hFirst _ hSecond =>
    hFirst.supplyOf hSecond
  bindOf := fun hFirst _ hSecond => hFirst.bindOf hSecond
  perm := .perm
  labelIf := fun needed _ hNext => .labelIf needed hNext
  place := .place
  jump := .jump
  branch := fun hUses hTrue hFalse _ =>
    .branch hUses hTrue hFalse
  append := fun hSimple hDest hTargets hSlots hUses _ =>
    .ofControl
      (.append hSimple hDest (by simp [hTargets]) hSlots)
      (.append hUses)
  define := fun hSimple hDest hSlots hUses _ =>
    .define hSimple hDest hSlots hUses
  allocate := fun x hSlot _ =>
    .ofControl (.allocate x.ty hSlot)
      (.allocate
        (usesOnly_iff.mpr (by simp [Instruction.operands])))
  merge := fun hBranches _ =>
    Lowering.merge_flows hBranches _
  insideLoop := .insideLoop
  leaving := .leaving
  getBind := fun hNext b _ _ hLive hKnown hOk =>
    hNext b hLive hKnown hOk
  leave := fun line hBreaks =>
    .ofControl (Stmt.lowerBreak_emits hBreaks line)
      (Builder.Steps.carries.lowerBreak line)

end

open Build (nothing)
open Instruction (Uses Defines usesOnly_iff)

namespace FunctionDef

variable {f : FunctionDef} {b b' : Builder} {d : Definition}
variable {n : Nat} {fs : List FunctionDef}
variable {ds : List Definition}

/- A function uses temporaries of its own only. -/
theorem flow_of_lower
    (hOk : f.lower b = .ok d b')
    (hExits : b.loopExits = []) :
    b.cleared.Flow [] d.lines b' := by
  rcases lower_eq_ok hOk with ⟨hWritten, rfl⟩
  have hKnown : Builder.Emits.Known [] [] b.cleared := by
    refine ⟨by simp, by simp, ?_⟩
    have hNone : b.cleared.loopExits = [] := hExits
    rw [hNone]
    exact Builder.reserved_nil _
  rcases f.lower_respects .flows
    (by simp [Builder.Numbered]) hKnown
    hWritten with ⟨code, hEmits, hFlow, -⟩
  have hCode : b'.lines.toList = code := hEmits.lines_eq
  rw [hCode]
  exact hFlow

/- The temporaries of a function are numbered in a row. -/
theorem dests_of_lower
    (hOk : f.lower b = .ok d b') :
    b.nextTemporary ≤ b'.nextTemporary ∧
      Line.dests d.lines =
        List.range' b.nextTemporary
          (b'.nextTemporary - b.nextTemporary) :=
  (emits_of_lower hOk).1.dests_eq

theorem mem_dests_of_lower
    (hOk : f.lower b = .ok d b') :
    n ∈ Line.dests d.lines ↔
      b.nextTemporary ≤ n ∧ n < b'.nextTemporary := by
  rcases dests_of_lower hOk with ⟨hLe, hDests⟩
  rw [hDests, List.mem_range'_1]
  omega

theorem dest_numbers_of_lowerAll
    (hOk : lowerAll fs b = .ok ds b') :
    b.nextTemporary ≤ b'.nextTemporary ∧
      (ds.flatMap fun d => Line.dests d.lines).Nodup ∧
      ∀ n ∈ ds.flatMap fun d => Line.dests d.lines,
        b.nextTemporary ≤ n ∧ n < b'.nextTemporary := by
  refine numbers_of_lowerAll _ id Builder.nextTemporary ?_
    hOk
  intro f b b' d hFunction
  rcases dests_of_lower hFunction with ⟨hLe, hDests⟩
  refine ⟨hLe, ?_,
    fun n hMem => (mem_dests_of_lower hFunction).mp hMem⟩
  rw [hDests]
  exact List.nodup_range'

/- No temporary is defined twice, in all functions. -/
theorem dests_of_lowerAll
    (hOk : lowerAll fs b = .ok ds b') :
    (ds.flatMap fun d => Line.dests d.lines).Nodup :=
  (dest_numbers_of_lowerAll hOk).2.1

/- Where a temporary is used, it has been defined. -/
theorem defined_of_lower
    (hOk : f.lower b = .ok d b')
    (hExits : b.loopExits = [])
    (hOwn : n ∈ Line.dests d.lines) :
    Line.Dominates (Defines n) (Uses n) d.lines := by
  have hLe := ((mem_dests_of_lower hOk).mp hOwn).1
  rcases (flow_of_lower hOk hExits).settled n hLe with
    hAvoids | hConfines
  · exact hAvoids.dominates
  · exact hConfines.dominates

theorem mem_dests_of_use
    {i : Instruction}
    (hOk : f.lower b = .ok d b')
    (hExits : b.loopExits = [])
    (hMem : .instruction i ∈ d.lines)
    (hUse : n ∈ i.temporaries) :
    n ∈ Line.dests d.lines := by
  rcases (flow_of_lower hOk hExits).used i hMem n hUse with
    hLive | hRange
  · cases hLive
  · exact (mem_dests_of_lower hOk).mpr hRange

end FunctionDef

namespace Program

/-
  No two instructions of a compiled program define the same
  temporary.  One that is used is defined in the same
  function, and every path from the entry of the function to
  a use of it passes the definition.  No line hides a use in
  its text.
-/
theorem temporaries_dominated
    {source output : String}
    (hCompile : compile source = .ok output) :
    ∃ p listing,
      Program.parse source = .ok p ∧ p.lower = .ok listing ∧
      output = listing.text ∧
      (listing.definitions.flatMap
        fun d => Line.dests d.lines).Nodup ∧
      ∀ d ∈ listing.definitions,
        (∀ text, .instruction (.verbatim text) ∉ d.lines) ∧
        ∀ i, .instruction i ∈ d.lines → ∀ n ∈ i.temporaries,
          n ∈ Line.dests d.lines ∧
            (listing.definitions.flatMap
              fun other => Line.dests other.lines).count n =
                1 ∧
            Line.Dominates (Defines n) (Uses n)
              d.lines := by
  rcases compile_eq_ok hCompile with
    ⟨p, listing, hParse, hLower, hText⟩
  rcases lower_eq_ok hLower with ⟨b, hAll⟩
  have hNodup := FunctionDef.dests_of_lowerAll hAll
  refine ⟨p, listing, hParse, hLower, hText, hNodup, ?_⟩
  intro d hMem
  rcases FunctionDef.lower_of_mem hAll rfl d hMem with
    ⟨f, -, b₁, b₂, hExits, hFunction⟩
  refine ⟨(FunctionDef.emits_of_lower
    hFunction).1.not_verbatim, ?_⟩
  intro i hIn n hUse
  have hOwn :=
    FunctionDef.mem_dests_of_use hFunction hExits hIn hUse
  refine ⟨hOwn, ?_,
    FunctionDef.defined_of_lower hFunction hExits hOwn⟩
  exact Nat.le_antisymm (List.nodup_iff_count.mp hNodup n)
    (List.count_pos_iff.mpr
      (List.mem_flatMap.mpr ⟨d, hMem, hOwn⟩))

theorem sample_dominated :
    ∃ output,
      compile sample = .ok output ∧
      ∃ p listing,
        Program.parse sample = .ok p ∧
          p.lower = .ok listing ∧
        output = listing.text ∧
        listing.definitions.length = 2 ∧
        (listing.definitions.flatMap
          fun d => Line.dests d.lines).Nodup ∧
        ∀ d ∈ listing.definitions,
          (∀ text, .instruction (.verbatim text) ∉
            d.lines) ∧
          ∀ i, .instruction i ∈ d.lines →
            ∀ n ∈ i.temporaries, n ∈ Line.dests d.lines ∧
              (listing.definitions.flatMap
                fun other => Line.dests other.lines).count
                  n = 1 ∧
              Line.Dominates (Defines n) (Uses n)
                d.lines := by
  rcases sample_lowers with
    ⟨p, listing, hParse, hLower, -, hTwo⟩
  have hCompile := compile_of_lower hParse hLower
  rcases temporaries_dominated hCompile with
    ⟨p', listing', hParse', hLower', hText, hDominated⟩
  cases hParse.symm.trans hParse'
  cases hLower.symm.trans hLower'
  exact ⟨_, hCompile, p, listing, hParse, hLower, hText,
    hTwo, hDominated⟩

end Program

end Bracketry
