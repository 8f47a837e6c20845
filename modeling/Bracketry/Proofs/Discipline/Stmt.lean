import Bracketry.Proofs.Discipline

/-
  This file follows the writing of statements, for all
  disciplines at once.

  The code of a statement leaves for the labels around it
  only where the statement says that it needs them, and
  places neither.  A choice takes a label for each of its
  branches and a loop takes one; between two statements in a
  row stands another.

  Main declarations:
    * `Stmt.Between.Respects`
    * `Stmt.follow_respects` and `Stmt.lower_respects`
-/

namespace Bracketry

open Build (Discipline nothing)
open Builder (Reach)
open Instruction (usesOnly_iff)

namespace Stmt

/-
  Code that respects a discipline, and leaves for the label
  before it and the label behind it only if it needs them.
-/
def Between.Respects
    (D : Discipline)
    (reach : Reach)
    (n : Nat)
    (needsBefore needsAfter : Bool)
    (x : Between) : Prop :=
  ∀ ⦃given : List Label⦄ ⦃before after : Label⦄,
    (needsBefore = true → before ∈ given) →
    (needsAfter = true → after ∈ given) →
    D.Holds reach given [] n [] nothing (x before after)

variable {D : Discipline} {reach : Reach}
variable {given : List Label} {k l m n : Nat}
variable {condition : Choice} {head body other : Between}
variable {needsBefore needsAfter : Bool}
variable {bodyNeedsBefore bodyNeedsAfter : Bool}
variable {otherNeedsBefore otherNeedsAfter : Bool}

theorem Between.Respects.on
    {x : Between}
    (hRespects :
      x.Respects D reach n needsBefore needsAfter)
    (before after : Label) :
    D.Holds reach [before, after] [] n [] nothing
      (x before after) :=
  hRespects (by simp) (by simp)

/- A choice, where loops around may be left. -/
theorem condition_respects
    {onTrue onFalse : Label}
    (hCondition : D.Decides reach.slots n condition)
    (hTrue : onTrue ∈ given)
    (hFalse : onFalse ∈ given) :
    D.Holds reach given [] n [] nothing
      (condition (some onTrue) (some onFalse)) :=
  D.leaving (hCondition (by simpa using hTrue)
    (by simpa using hFalse))

/- Code with code behind it, if there is any. -/
theorem follow_respects
    {tail : Option (Bool × Between)}
    {headNeedsAfter : Bool}
    (hHead : head.Respects D reach m needsBefore
      headNeedsAfter)
    (hTail : ∀ rest ∈ tail, 1 ≤ n ∧
      rest.2.Respects D reach (n - 1) rest.1 needsAfter)
    (hLast : tail = none → needsAfter = headNeedsAfter) :
    Between.Respects D reach (m + n) needsBefore needsAfter
      (follow head headNeedsAfter tail) := by
  intro given before after hBefore hAfter
  cases tail with
  | none =>
      rw [hLast rfl] at hAfter
      exact D.afford (hHead hBefore hAfter)
        (Nat.le_add_right m n)
  | some rest =>
      rcases hTail rest rfl with ⟨hOne, hRest⟩
      refine D.labelIf (headNeedsAfter || rest.1) (by omega)
        fun between => ?_
      have hKept :
          (headNeedsAfter || rest.1) = true →
            between ∈
              between.kept (headNeedsAfter || rest.1) ++
                given :=
        fun hNeeded =>
          List.mem_append_left _
            (Label.mem_kept.mpr ⟨hNeeded, rfl⟩)
      refine D.bind (hHead ?_ ?_) (by omega) fun _ => ?_
      · exact fun hNeeded =>
          List.mem_append_right _ (hBefore hNeeded)
      · exact fun hNeeded => hKept (by simp [hNeeded])
      · refine D.placeIf hKept
          (D.afford (hRest ?_ ?_) (by omega))
        · exact fun hNeeded => hKept (by simp [hNeeded])
        · exact fun hNeeded =>
            List.mem_append_right _ (hAfter hNeeded)

theorem lowerIf_respects
    (hCondition : D.Decides reach.slots k condition)
    (hBody : body.Respects D reach m bodyNeedsBefore
      bodyNeedsAfter)
    (hLe : k + m + 1 ≤ n) :
    Between.Respects D reach n false true
      (lowerIf condition body) := by
  intro given before after _ hAfter
  refine D.label (by omega) fun onTrue => ?_
  have hTrue : onTrue ∈ onTrue :: given :=
    List.mem_cons_self
  have hAfter' : after ∈ onTrue :: given :=
    List.mem_cons_of_mem onTrue (hAfter rfl)
  refine D.bind
    (condition_respects hCondition hTrue hAfter') (by omega)
    fun _ => D.placeBind hTrue fun _ => ?_
  exact D.afford (hBody (fun _ => hTrue) (fun _ => hAfter'))
    (by omega)

theorem lowerIfElse_respects
    (hCondition : D.Decides reach.slots k condition)
    (hBody : body.Respects D reach l bodyNeedsBefore
      bodyNeedsAfter)
    (hOther : other.Respects D reach m otherNeedsBefore
      otherNeedsAfter)
    (hLe : k + l + m + 2 ≤ n) :
    Between.Respects D reach n false true
      (lowerIfElse condition body other) := by
  intro given before after _ hAfter
  refine D.label (by omega) fun onTrue => ?_
  refine D.label (by omega) fun onFalse => ?_
  have hFalse : onFalse ∈ onFalse :: onTrue :: given :=
    List.mem_cons_self
  have hTrue : onTrue ∈ onFalse :: onTrue :: given := by
    simp
  have hAfter' : after ∈ onFalse :: onTrue :: given := by
    simp [hAfter rfl]
  refine D.perm ?_ (List.Perm.swap onFalse onTrue [])
  refine D.bind (condition_respects hCondition hTrue hFalse)
    (by omega) fun _ => D.placeBind hTrue fun _ => ?_
  refine D.bind (hBody (fun _ => hTrue) (fun _ => hAfter'))
    (by omega) fun _ => ?_
  refine D.bind (D.jump (n := 0) hAfter') (Nat.zero_le _)
    fun _ => ?_
  refine D.placeBind hFalse fun _ => ?_
  exact D.afford
    (hOther (fun _ => hFalse) (fun _ => hAfter')) (by omega)

theorem lowerWhile_respects
    (hCondition : D.Decides reach.slots k condition)
    (hBody : body.Respects D reach m bodyNeedsBefore
      bodyNeedsAfter)
    (hLe : k + m + 1 ≤ n) :
    Between.Respects D reach n true true
      (lowerWhile condition body) := by
  intro given before after hBefore hAfter
  refine D.label (by omega) fun start => ?_
  have hStart : start ∈ start :: given := List.mem_cons_self
  have hBefore' : before ∈ start :: given :=
    List.mem_cons_of_mem start (hBefore rfl)
  have hAfter' : after ∈ start :: given :=
    List.mem_cons_of_mem start (hAfter rfl)
  refine D.bind (condition_respects hCondition hStart
    hAfter') (by omega) fun _ => D.placeBind hStart fun _ =>
      ?_
  refine D.bind (D.insideLoop hAfter'
    (hBody (fun _ => hStart) (fun _ => hBefore')))
      (by omega) fun _ => ?_
  exact D.jump hBefore'

theorem lowerDoWhile_respects
    (hBody : body.Respects D reach k bodyNeedsBefore
      bodyNeedsAfter)
    (hCondition : D.Decides reach.slots m condition)
    (hLe : k + m + 1 ≤ n) :
    Between.Respects D reach n true true
      (lowerDoWhile body condition) := by
  intro given before after hBefore hAfter
  refine D.label (by omega) fun test => ?_
  have hTest : test ∈ test :: given := List.mem_cons_self
  have hBefore' : before ∈ test :: given :=
    List.mem_cons_of_mem test (hBefore rfl)
  have hAfter' : after ∈ test :: given :=
    List.mem_cons_of_mem test (hAfter rfl)
  refine D.bind (D.insideLoop hAfter'
    (hBody (fun _ => hBefore') (fun _ => hTest))) (by omega)
    fun _ => D.placeBind hTest fun _ => ?_
  exact D.afford (condition_respects hCondition hBefore'
    hAfter') (by omega)

/-
  A stored value is computed before the address, which may
  branch in between.
-/
theorem lowerAssign_respects
    {target : RawPlace}
    {value : RawExpr}
    (hTarget :
      Identifier.StoredIn target.variables reach.slots)
    (hValue : Identifier.StoredIn value.variables
      reach.slots) :
    D.Holds reach given [] (value.cost + target.cost + 1) []
      nothing (RawStmt.lowerAssign target value) := by
  refine D.leaving (D.supply
    ((value.lower_respects hValue).convert [] target.ty)
    (by omega) fun stored => ?_)
  refine D.supplyOf (target.address_respects hTarget _)
    (by omega) fun address hAddress => ?_
  refine D.append trivial rfl rfl ?_ ?_ (by omega)
  · exact RawPlace.stored_of_address hTarget hAddress
  · exact usesOnly_iff.mpr
      (by simp +contextual [Instruction.operands])

theorem ret_respects
    {n : Nat}
    {live : List Nat}
    {returned : Option Value}
    (hLive : ∀ v ∈ returned, ∀ k ∈ v.temporaries, k ∈ live)
    (hLe : 1 ≤ n) :
    D.Holds ⟨reach.slots, false⟩ given [] n live nothing
      (Build.append (.ret returned)) := by
  refine D.append trivial rfl rfl ?_ ?_ hLe
  · simp [Instruction.accessed?, Instruction.address?]
  · exact usesOnly_iff.mpr
      (by simpa [Instruction.operands] using hLive)

theorem lowerReturn_respects
    (t : Ty)
    {value : RawExpr}
    (hValue : Identifier.StoredIn value.variables
      reach.slots) :
    D.Holds reach given [] (value.cost + 1) [] nothing
      (RawStmt.lowerReturn t (some value)) := by
  refine D.leaving (D.supply
    ((value.lower_respects hValue).convert [] t) (by omega)
    fun returned => ?_)
  exact ret_respects (by simp) (by omega)

/- A raw statement respects every discipline at its cost. -/
theorem raw_respects
    (hBreaks : reach.breaks = true)
    (st : RawStmt)
    (hStored :
      Identifier.StoredIn st.variables reach.slots) :
    Between.Respects D reach st.cost st.needsBefore
      st.needsAfter st.lower := by
  induction st with
  | empty line =>
      exact fun _ _ _ _ _ => D.pure (by simp [nothing])
  | single head ih => exact ih hStored
  | sequence head tail ihHead ihTail =>
      rcases Identifier.storedIn_append.mp hStored with
        ⟨hHead, hTail⟩
      refine follow_respects (ihHead hHead) ?_ (by simp)
      rintro _ ⟨⟩
      exact ⟨Nat.le_add_left 1 _, ihTail hTail⟩
  | ifThen condition body line ih =>
      rcases Identifier.storedIn_append.mp hStored with
        ⟨hFirst, hBody⟩
      exact lowerIf_respects
        (condition.lower_respects hFirst).branches
          (ih hBody)
        (by simp; omega)
  | ifElse condition body other line ihBody ihOther =>
      rcases Identifier.storedIn_append.mp hStored with
        ⟨hLeft, hOther⟩
      rcases Identifier.storedIn_append.mp hLeft with
        ⟨hFirst, hBody⟩
      exact lowerIfElse_respects
        (condition.lower_respects hFirst).branches
        (ihBody hBody) (ihOther hOther) (by simp; omega)
  | whileLoop condition body line ih =>
      rcases Identifier.storedIn_append.mp hStored with
        ⟨hFirst, hBody⟩
      exact lowerWhile_respects
        (condition.lower_respects hFirst).branches
          (ih hBody)
        (by simp; omega)
  | doWhile body condition line ih =>
      rcases Identifier.storedIn_append.mp hStored with
        ⟨hBody, hLast⟩
      exact lowerDoWhile_respects (ih hBody)
        (condition.lower_respects hLast).branches
        (by simp; omega)
  | assign target value line =>
      rcases Identifier.storedIn_append.mp hStored with
        ⟨hTarget, hValue⟩
      exact fun _ _ _ _ _ =>
        lowerAssign_respects hTarget hValue
  | ret value t line =>
      cases value with
      | none =>
          exact fun _ _ _ _ _ => D.leaving
            (ret_respects (by simp) (Nat.le_refl 1))
      | some value =>
          exact fun _ _ _ _ _ =>
            lowerReturn_respects t hStored
  | breakLoop line =>
      exact fun _ _ _ _ _ => D.leave line hBreaks
  | evaluate call line =>
      intro given before after _ _
      refine D.leaving (D.supply
        ((call.lower_respects hStored).reduce [])
        (Nat.le_refl _) fun _ => ?_)
      exact D.pure (by simp [nothing])

/- Nothing is in reach but what a statement mentions. -/
theorem raw_respects_on
    (D : Discipline)
    (st : RawStmt)
    (before after : Label) :
    D.Holds ⟨st.variables.map Identifier.storage, true⟩
      [before, after] [] st.cost [] nothing
      (st.lower before after) :=
  (raw_respects rfl st (Identifier.storedIn_storage _)).on
    before after

/- A statement of the language respects it as well. -/
theorem lower_respects
    (hBreaks : reach.breaks = true)
    (st : Stmt)
    (hStored :
      Identifier.StoredIn st.variables reach.slots) :
    Between.Respects D reach st.cost st.needsBefore
      st.needsAfter st.lower := by
  rcases st.raw_eq with
    ⟨hLower, hBefore, hAfter, hVariables, hCost⟩
  rw [← hVariables] at hStored
  rw [← hLower, ← hBefore, ← hAfter, ← hCost]
  exact raw_respects hBreaks st.raw hStored

/- So does the rest of a sequence. -/
theorem lowerTail_respects
    (hBreaks : reach.breaks = true)
    (sts : List Stmt)
    (hStored :
      Identifier.StoredIn (Stmt.allVariables sts)
        reach.slots)
    (headNeedsAfter : Bool) :
    ∀ rest ∈ lowerTail sts,
      1 ≤ allCost sts ∧ rest.2.Respects D reach
        (allCost sts - 1) rest.1
        (lastNeedsAfter headNeedsAfter sts) := by
  cases sts with
  | nil => simp [lowerTail]
  | cons st sts =>
      have hRest := lower_respects (D := D) hBreaks
        (.sequence st sts) hStored
      rw [lower, needsBefore, needsAfter, cost] at hRest
      rw [lowerTail, allCost, lastNeedsAfter]
      rintro _ ⟨⟩
      exact ⟨Nat.le_add_left 1 _, hRest⟩

end Stmt

end Bracketry
