import Bracketry.Proofs.Program.Closure
import Bracketry.Proofs.Program.Scoping

/-
  This file shows that slots are allocated before they are
  accessed, on every path through a function, with one
  exception.

  A branch or a loop body may be a bare declaration.  Its
  variable stays in sight behind it, but its slot is
  allocated only if the branch is taken.
-/

namespace Bracketry

namespace FunctionDef

open Builder (Reach)

variable {reach : Reach} {slot : String}

/- The slot of a parameter is opened when its turn comes. -/
theorem lowerParameters_opens
    {params : List Identifier}
    (hStored : Identifier.StoredIn params reach.slots)
    (hSlot : ∃ x ∈ params, x.storage = slot) :
    Build.Opens slot reach [] []
      (lowerParameters params) := by
  induction params with
  | nil => simp at hSlot
  | cons x rest ih =>
      rcases List.forall_mem_cons.mp hStored with
        ⟨hFirst, hRest⟩
      by_cases hHere : x.storage = slot
      · subst hHere
        have hParameter :
            Build.Opens x.storage reach [] []
              (lowerParameter x) :=
          (Build.Opens.allocate x.ty hFirst).bind
            fun _ => storeIncoming_respects (D := .emits)
              hFirst (Nat.le_refl 1)
        exact hParameter.bind fun _ =>
          lowerParameters_respects (D := .emits) hRest
            (Nat.le_refl _)
      · have hNarrow :
            x.storage ∈ (reach.narrow slot).slots :=
          List.mem_filter.mpr ⟨hFirst, by simpa using hHere⟩
        refine Build.Opens.before
          (lowerParameter_respects (D := .emits) hNarrow
            (Nat.le_refl 2))
          fun _ => ih hRest ?_
        rcases hSlot with ⟨y, hMem, hEq⟩
        rcases List.mem_cons.mp hMem with rfl | hIn
        · exact absurd hEq hHere
        · exact ⟨y, hIn, hEq⟩

variable {f : FunctionDef}

/- The slot is open where the body mentions it. -/
theorem lowerBody_houses
    (hBreaks : reach.breaks = true)
    (hStored :
      Identifier.StoredIn f.body.variables reach.slots)
    (hBody : f.body.Opens slot ∨ f.body.Houses slot) :
    Build.Houses slot reach [] [] f.lowerBody := by
  have hInside :
      Stmt.Between.Houses slot reach f.body.needsBefore
        f.body.needsAfter f.body.lower :=
    Stmt.branch_houses hBreaks hStored hBody
      (Stmt.lower_houses hBreaks f.body hStored)
  apply Build.Houses.labelIf f.body.needsBefore
  intro before
  apply Build.Houses.labelIf f.body.needsAfter
  intro after
  refine Build.Houses.perm ?_ (f.kept_comm before after)
  rcases f.mem_kept before after with ⟨hBefore, hAfter⟩
  apply Build.Houses.placeIf hBefore
  exact (hInside hBefore hAfter).behind
    fun _ => lowerLast_respects (D := .emits) f hAfter
      (Nat.le_refl 1)

/- A slot in reach is accessed behind its allocation. -/
theorem houses_of_mem
    (hApart :
      ∀ x ∈ f.signature.params ++ f.body.variables,
        ∀ y ∈ f.signature.params ++ f.body.variables,
          x.storage = y.storage → x = y)
    (hStrays : ∀ x ∈ f.strays, x.storage ≠ slot)
    (hSlot : slot ∈ f.reach.slots) :
    Build.Houses slot f.reach [] []
      (do
        lowerParameters f.signature.params
        f.lowerBody) := by
  rcases Identifier.storedIn_append.mp f.storedIn_reach with
    ⟨hParams, hVariables⟩
  by_cases hParam : ∃ x ∈ f.signature.params,
    x.storage = slot
  · have hOpens :
        Build.Opens slot f.reach [] []
          (do
            lowerParameters f.signature.params
            f.lowerBody) :=
      (lowerParameters_opens hParams hParam).bind
        fun _ => lowerBody_respects (D := .emits) rfl
          hVariables
    exact hOpens.houses
  · rcases List.mem_map.mp hSlot with ⟨x, hMem, rfl⟩
    have hOut : x ∉ f.signature.params :=
      fun hIn => hParam ⟨x, hIn, rfl⟩
    have hIn : x ∈ f.body.variables :=
      (List.mem_append.mp hMem).resolve_left hOut
    have hAlone : Identifier.Alone x f.body.variables :=
      fun y hY hEq => hApart y (List.mem_append_right _ hY)
        x hMem hEq
    have hCertain : x ∉ f.strays := fun hStray =>
      hStrays x hStray rfl
    have hSettles :=
      Stmt.settles f.body f.opened (fun _ => id) hOut
      hCertain hAlone hIn
    have hAvoids :
        Identifier.Apart x.storage f.signature.params :=
      fun y hY hEq => hParam ⟨y, hY, hEq⟩
    exact .before (lowerParameters_respects (D := .emits)
      (hParams.without hAvoids) (Nat.le_refl _))
      fun _ => lowerBody_houses rfl hVariables
        hSettles.either

/- Every path to an access passes the allocation. -/
theorem dominates_of_lower
    {b b' : Builder}
    {d : Definition}
    (hOk : f.lower b = .ok d b')
    (hExits : b.loopExits = [])
    (hApart :
      ∀ x ∈ f.signature.params ++ f.body.variables,
        ∀ y ∈ f.signature.params ++ f.body.variables,
          x.storage = y.storage → x = y)
    (hStrays : ∀ x ∈ f.strays, x.storage ≠ slot) :
    Line.Dominates (Instruction.Allocates slot)
      (Instruction.Accesses slot) d.lines := by
  have hEmits := (emits_of_lower hOk).1
  by_cases hSlot : slot ∈ f.reach.slots
  · have hKnown : Builder.Emits.Known [] [] b.cleared := by
      refine ⟨by simp, by simp, ?_⟩
      rw [show b.cleared.loopExits = [] from hExits]
      exact Builder.reserved_nil _
    rcases lower_eq_ok hOk with ⟨hWritten, hDefinition⟩
    have hNew : slot ∉ b.cleared.allocated :=
      List.not_mem_nil
    rcases houses_of_mem hApart hStrays hSlot hNew hKnown
      hWritten with
      ⟨code, hCode, hConfines⟩
    have hLines : d.lines = code := by
      rw [hDefinition]
      exact hCode.lines_eq
    rw [hLines]
    exact hConfines.dominates
  · exact (hEmits.avoids hSlot).dominates

end FunctionDef

namespace Program

open Instruction (Allocates Accesses)

/-
  In what is compiled, every path to an access of a slot
  passes its allocation, unless the variable is mentioned
  where it may not have been declared.  Such a variable was
  declared by a branch or a loop body that is no block.
-/
theorem slots_allocated_first
    {source output : String}
    (hCompile : compile source = .ok output) :
    ∃ p listing,
      Program.parse source = .ok p ∧ p.lower = .ok listing ∧
      output = listing.text ∧
      ∀ d ∈ listing.definitions,
        ∃ f ∈ p.functions,
          d.signature = f.signature ∧
          (∀ slot,
            (∀ x ∈ f.strays, x.storage ≠ slot) →
            Line.Dominates (Allocates slot) (Accesses slot)
              d.lines) ∧
          ∀ x ∈ f.strays, x ∈ f.bare := by
  rcases compile_eq_ok hCompile with
    ⟨p, listing, hParse, hLower, hText⟩
  rcases lower_eq_ok hLower with ⟨b, hAll⟩
  refine ⟨p, listing, hParse, hLower, hText, ?_⟩
  intro d hMem
  rcases FunctionDef.lower_of_mem hAll rfl d hMem with
    ⟨f, hFunction, b₁, b₂, hExits, hOk⟩
  refine ⟨f, hFunction, (FunctionDef.emits_of_lower hOk).2,
    ?_, ?_⟩
  · intro slot hStrays
    refine FunctionDef.dominates_of_lower hOk hExits
      ?_ hStrays
    intro x hFirst y hSecond hEq
    exact FunctionDef.eq_of_storage hParse hFunction hFirst
      hSecond hEq
  · exact fun x hStray =>
      FunctionDef.bare_of_strays hParse hFunction hStray

/- A loop declares a variable in each turn. -/
def summing : String :=
  "[int sum: int[4] a] \x7b int s = 0; int i = 0;
while i < 4 && s >= 0 \x7b int x = a[i]; s = s + x; i = i + 1; \x7d
return s; \x7d"

theorem summing_allocated_first :
    ∃ output p listing,
      compile summing = .ok output ∧
      Program.parse summing = .ok p ∧
        p.lower = .ok listing ∧
      output = listing.text ∧ listing.definitions ≠ [] ∧
      ∀ d ∈ listing.definitions, ∀ slot,
        Line.Dominates (Allocates slot) (Accesses slot)
          d.lines := by
  have hChecked :
      (Program.parse summing).toOption.any (fun p =>
        p.functions.all (·.strays.isEmpty) &&
          p.lower.toOption.any (!·.definitions.isEmpty)) =
            true := by
    decide +kernel
  rcases Step.except_any_eq_true.mp hChecked with
    ⟨p, hParse, hChecked⟩
  simp only [Bool.and_eq_true, List.all_eq_true,
    List.isEmpty_iff, Step.except_any_eq_true] at hChecked
  rcases hChecked with ⟨hStrays, listing, hLower, hSome⟩
  have hCompile := compile_of_lower hParse hLower
  rcases slots_allocated_first hCompile with
    ⟨p', listing', hParse', hLower', -, hFirst⟩
  cases hParse.symm.trans hParse'
  cases hLower.symm.trans hLower'
  refine ⟨listing.text, p, listing, hCompile, hParse,
    hLower, rfl, ?_, ?_⟩
  · intro hNone
    simp [hNone] at hSome
  · intro d hMem slot
    rcases hFirst d hMem with
      ⟨f, hFunction, -, hDominates, -⟩
    apply hDominates slot
    simp [hStrays f hFunction]

/- A branch declares what is mentioned behind it. -/
def skipping : String :=
  "[int f: bool c] \x7b if c int x = 1; x = 2; return x; \x7d"

/- In the other branch, the slot is not allocated. -/
theorem skipping_unallocated :
    ∃ output p listing,
      compile skipping = .ok output ∧
      Program.parse skipping = .ok p ∧
        p.lower = .ok listing ∧
      output = listing.text ∧
      ∃ d ∈ listing.definitions,
        ¬ Line.Dominates (Allocates "%x.f.0")
          (Accesses "%x.f.0") d.lines := by
  have hChecked :
      (Program.parse skipping).toOption.any (fun p =>
        p.lower.toOption.any fun listing =>
          listing.definitions.any fun d =>
            Line.escapes
              (Instruction.allocates "%x.f.0")
              (·.accessed? == some "%x.f.0")
              d.lines [8, 3, 2, 1, 0] 9) = true := by
    decide +kernel
  rcases Step.except_any_eq_true.mp hChecked with
    ⟨p, hParse, hChecked⟩
  rcases Step.except_any_eq_true.mp hChecked with
    ⟨listing, hLower, hChecked⟩
  rcases List.any_eq_true.mp hChecked with
    ⟨d, hMem, hEscapes⟩
  refine ⟨listing.text, p, listing,
    compile_of_lower hParse hLower, hParse,
    hLower, rfl, d, hMem, ?_⟩
  exact Line.not_dominates_of_escapes
    (fun _ => Instruction.allocates_eq_true)
    (fun _ hUse => beq_iff_eq.mp hUse) hEscapes

end Program

end Bracketry
