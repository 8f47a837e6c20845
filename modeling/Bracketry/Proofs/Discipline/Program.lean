import Bracketry.Compile
import Bracketry.Proofs.Discipline.Stmt

/-
  This file follows the writing of functions, for all
  disciplines at once.

  A function stores its arguments in the slots of its
  parameters, takes two labels for its body, and ends in a
  return of its own where the body lets it fall through.
-/

namespace Bracketry

open Build (Discipline nothing)
open Builder (Reach)
open Instruction (usesOnly_iff)

namespace FunctionDef

/- The slots of the parameters and of the variables. -/
def reach (f : FunctionDef) : Builder.Reach where
  slots :=
    (f.signature.params ++ f.body.variables).map
      Identifier.storage
  breaks := true

theorem storedIn_reach
    (f : FunctionDef) :
    Identifier.StoredIn
      (f.signature.params ++ f.body.variables)
        f.reach.slots :=
  fun _ hMem => List.mem_map_of_mem hMem

/-
  What a function takes at most: slots for its parameters,
  two labels around its body, and its end.
-/
def cost (f : FunctionDef) : Nat :=
  2 * f.signature.params.length + f.body.cost + 3

/- Write a function behind its parameters. -/
def lowerBody (f : FunctionDef) : Build Definition := do
  let before ← Build.label
  let after ← Build.label
  if f.body.needsBefore then
    Build.place before
  f.body.lower before after
  if f.body.needsAfter then
    Build.place after
  lowerEnd f.signature.returnType
  return ⟨f.signature, (← get).lines.toList⟩

section

variable {D : Discipline} {reach : Reach}
variable {given : List Label} {n : Nat}
variable (f : FunctionDef)

/- The argument is stored in the slot of its parameter. -/
theorem storeIncoming_respects
    {x : Identifier}
    (hStored : x.storage ∈ reach.slots)
    (hLe : 1 ≤ n) :
    D.Holds reach given [] n [] nothing
      (Build.append
        (.store x.incoming
          (.named x.storage (.pointer x.ty)))) := by
  refine D.append trivial rfl rfl ?_ (usesOnly_iff.mpr ?_)
    hLe
  · intro slot hSlot
    rcases Option.some.inj hSlot with rfl
    exact hStored
  · simp [Instruction.operands, Identifier.incoming,
      Value.temporaries]

theorem lowerParameter_respects
    {x : Identifier}
    (hStored : x.storage ∈ reach.slots)
    (hLe : 2 ≤ n) :
    D.Holds reach [] [] n [] nothing (lowerParameter x) :=
  D.bind (D.leaving (D.allocate x hStored (Nat.le_refl 1)))
    (Nat.le_of_succ_le hLe)
    fun _ => storeIncoming_respects hStored
      (Nat.le_sub_one_of_lt hLe)

theorem lowerParameters_respects
    {params : List Identifier}
    (hStored : Identifier.StoredIn params reach.slots)
    (hLe : 2 * params.length ≤ n) :
    D.Holds reach [] [] n [] nothing
      (lowerParameters params) := by
  induction params generalizing n with
  | nil => exact D.pure (by simp [nothing])
  | cons x rest ih =>
      rcases List.forall_mem_cons.mp hStored with
        ⟨hFirst, hRest⟩
      rw [List.length_cons] at hLe
      exact D.bind
        (lowerParameter_respects hFirst (Nat.le_refl 2))
        (by omega) fun _ => ih hRest (by omega)

/- What falling off the end returns is a constant. -/
theorem temporaries_initial
    (t : Ty) :
    (Value.initial t).temporaries = [] := by
  unfold Value.initial
  split <;> rfl

theorem lowerEnd_respects
    (t : Ty)
    (hLe : 1 ≤ n) :
    D.Holds reach given [] n [] nothing (lowerEnd t) := by
  refine D.getBind fun b => ?_
  split
  · exact D.pure (by simp [nothing])
  · split
    · exact D.append trivial rfl rfl
        (by
          simp [Instruction.accessed?,
            Instruction.address?])
        (usesOnly_iff.mpr (by simp [Instruction.operands]))
          hLe
    · exact D.append trivial rfl rfl
        (by
          simp [Instruction.accessed?,
            Instruction.address?])
        (usesOnly_iff.mpr
          (by
            simp [Instruction.operands,
              temporaries_initial])) hLe

/- The end of a function, with its label if needed. -/
theorem lowerLast_respects
    {after : Label}
    (hGiven : f.body.needsAfter = true → after ∈ given)
    (hLe : 1 ≤ n) :
    D.Holds reach given (after.kept f.body.needsAfter ++ [])
      n [] nothing (do
        if f.body.needsAfter then
          Build.place after
        lowerEnd f.signature.returnType
        return (⟨f.signature, (← get).lines.toList⟩ :
          Definition)) := by
  refine D.placeIf hGiven
    (D.bind (lowerEnd_respects _ (Nat.le_refl 1)) hLe
    fun _ => ?_)
  exact D.getBind fun _ => D.pure (by simp [nothing])

/- The labels around the body, if they are needed. -/
theorem kept_comm
    (before after : Label) :
    (before.kept f.body.needsBefore ++
        (after.kept f.body.needsAfter ++ [])).Perm
      (after.kept f.body.needsAfter ++
        (before.kept f.body.needsBefore ++ [])) := by
  simpa using List.perm_append_comm

theorem mem_kept
    (before after : Label) :
    (f.body.needsBefore = true →
      before ∈ after.kept f.body.needsAfter ++
        (before.kept f.body.needsBefore ++ [])) ∧
    (f.body.needsAfter = true →
      after ∈ after.kept f.body.needsAfter ++
        (before.kept f.body.needsBefore ++ [])) := by
  constructor <;> intro hNeeded <;> simp [hNeeded]

theorem lowerBody_respects
    {f : FunctionDef}
    (hBreaks : reach.breaks = true)
    (hStored :
      Identifier.StoredIn f.body.variables reach.slots) :
    D.Holds reach [] [] (f.body.cost + 3) [] nothing
      f.lowerBody := by
  refine D.labelIf f.body.needsBefore (by omega)
    fun before => ?_
  refine D.labelIf f.body.needsAfter (by omega) fun after =>
    ?_
  refine D.perm ?_ (f.kept_comm before after)
  rcases f.mem_kept before after with ⟨hBefore, hAfter⟩
  refine D.placeIf hBefore ?_
  refine D.bind (Stmt.lower_respects hBreaks f.body hStored
    hBefore hAfter) (by omega) fun _ => ?_
  exact lowerLast_respects f hAfter (by omega)

end

/- A function on a page of its own. -/
theorem lower_respects
    (D : Discipline)
    (f : FunctionDef) :
    D.Holds f.reach [] [] f.cost [] nothing
      (do
        lowerParameters f.signature.params
        f.lowerBody) := by
  rcases Identifier.storedIn_append.mp f.storedIn_reach with
    ⟨hParams, hVariables⟩
  unfold cost
  refine D.bind
    (lowerParameters_respects hParams (Nat.le_refl _))
    (by omega) fun _ => ?_
  exact D.afford (lowerBody_respects rfl hVariables)
    (by omega)

end FunctionDef

end Bracketry
