import Bracketry.Proofs.Discipline.Stmt

/-
  This file shows what disciplines all code respects.

  Expressions and statements are written by elementary
  steps, whether they succeed or end in a fault.  They place
  no label given from outside.  Nor do they leave for other
  labels, and a statement leaves for those around it only
  where it says that it needs them.  No slots are accessed
  but those of the variables mentioned.
-/

namespace Bracketry

section

open Build (Discipline)
open Instruction (Marked)

theorem Instruction.IsSimple.marked
    {i : Instruction}
    (hSimple : i.IsSimple) :
    i.Marked := by
  cases i with
  | allocate slot t => exact hSimple.elim
  | _ => trivial

namespace Builder.Carries

variable {allowed : Instruction → Prop}
variable {R : Builder → Builder → Prop}

theorem merge
    (hR : Carries Marked R)
    {branches : Choice}
    (hBranches :
      ∀ (onTrue onFalse : Label) (b : Builder),
        R b ((branches (some onTrue) (some onFalse)).after
          b)) :
    ∀ b, R b ((Lowering.merge branches).after b) := by
  refine hR.bind hR.reserve fun onTrue _ => ?_
  refine hR.bind hR.reserve fun onFalse _ => ?_
  refine hR.bind hR.reserve fun done _ => ?_
  refine hR.bind (hBranches onTrue onFalse) fun _ _ => ?_
  refine hR.bind (fun b => hR.place b onTrue) fun _ _ => ?_
  refine hR.bind (fun b => hR.jump b done) fun _ _ => ?_
  refine hR.bind (fun b => hR.place b onFalse) fun _ _ => ?_
  refine hR.bind (fun b => hR.jump b done) fun _ _ => ?_
  refine hR.bind (fun b => hR.place b done) fun _ _ => ?_
  exact fun b => hR.define trivial rfl

theorem lowerBreak
    (hR : Carries allowed R)
    (line : Nat)
    (b : Builder) :
    R b ((Stmt.lowerBreak line).after b) := by
  unfold Build.after
  rw [Stmt.lowerBreak, Step.get_bind]
  cases b.loopExits with
  | nil => exact hR.refl b
  | cons exit rest => exact hR.jump b exit

end Builder.Carries

namespace Build.Discipline

/- A step leads from each state to a related one. -/
def ofCarries
    {R : Builder → Builder → Prop}
    (hR : Builder.Carries Marked R) : Discipline where
  Holds := fun _ _ _ _ _ _ x => ∀ b, R b (x.after b)
  pure := fun _ => hR.refl
  throw := fun _ => hR.refl
  afford := fun hFirst _ => hFirst
  supplyOf := fun hFirst _ hSecond => hR.bind hFirst hSecond
  bindOf := fun hFirst _ hSecond =>
    hR.bind hFirst fun a _ => hSecond a
  perm := fun hFirst _ => hFirst
  labelIf := fun _ _ hNext => hR.bind hR.reserve fun l _ =>
    hNext l
  place := fun _ b => hR.place b _
  jump := fun _ b => hR.jump b _
  branch := fun _ _ _ _ _ => hR.branch fun _ _ => trivial
  append := fun hSimple hDest _ _ _ _ _ =>
    hR.append hSimple.marked hDest
  define := fun hSimple hDest _ _ _ _ =>
    hR.define (hSimple _).marked (hDest _)
  allocate := fun x _ _ _ => hR.allocate x.storage_marked
  merge := fun hBranches _ => hR.merge hBranches
  insideLoop := fun _ hBody => hR.insideLoop hBody
  leaving := id
  getBind := fun hNext b => hNext b b
  leave := fun line _ => hR.lowerBreak line

/- A step is made of elementary steps. -/
def steps : Discipline :=
  ofCarries Builder.Steps.carries

end Build.Discipline

/- All three uses lead from each state to a related one. -/
structure Lowering.Carried
    (R : Builder → Builder → Prop)
    (lowering : Lowering) : Prop where
  reduce : ∀ b, R b (lowering.reduce.after b)
  convert : ∀ t b, R b ((lowering.convert t).after b)
  branches :
    ∀ onTrue onFalse b,
      R b ((lowering.branches onTrue onFalse).after b)

namespace Builder.Carries

variable {R : Builder → Builder → Prop}
variable (hR : Carries Marked R)

include hR

theorem convertValue
    (value : Value)
    (target : Ty)
    (line : Nat) :
    ∀ b, R b
      ((Build.convertValue value target line).after b) :=
  (Discipline.convertValue (.ofCarries hR) target line
    (fun _ hMem => hMem) (Nat.le_refl 1) :
      Discipline.Supplies (.ofCarries hR) [] 1 _ _)

theorem address
    (place : RawPlace) :
    ∀ b, R b (place.address.after b) :=
  place.address_respects (D := .ofCarries hR)
    (Identifier.storedIn_storage _) []

theorem lowerExpr
    (e : RawExpr) :
    e.lower.Carried R := by
  have hRespects := e.lower_respects (D := .ofCarries hR)
    (Identifier.storedIn_storage _)
  exact ⟨hRespects.reduce [], hRespects.convert [],
    hRespects.branches.on⟩

theorem lowerStmt
    (st : RawStmt)
    (before after : Label) :
    ∀ b, R b ((st.lower before after).after b) :=
  Stmt.raw_respects_on (.ofCarries hR) st before after

end Builder.Carries

end

------------------------------------------------------------
-- Writing
------------------------------------------------------------

theorem Build.Writes.labelIf
    {α : Type}
    {own : List Label}
    {f : Label → Build α}
    (needed : Bool)
    (hNext : ∀ l,
      Build.Writes (l.kept needed ++ own) (f l)) :
    Build.Writes own (Build.label >>= f) := by
  refine Build.Writes.label fun l => ?_
  cases needed with
  | true => exact hNext l
  | false =>
      refine (hNext l).weaken
        (fun k hMem => List.mem_cons_of_mem l hMem) ?_
      exact fun k => List.count_le_count_cons

theorem Lowering.merge_writes
    {branches : Choice}
    (hBranches :
      ∀ onTrue onFalse : Label,
        Build.Writes []
          (branches (some onTrue) (some onFalse))) :
    Build.Writes [] (merge branches) := by
  unfold merge
  apply Build.Writes.label
  intro onTrue
  apply Build.Writes.label
  intro onFalse
  apply Build.Writes.label
  intro done
  have hPlaced :
      [onTrue, onFalse, done].Perm
        [done, onFalse, onTrue] :=
    (List.reverse_perm [onTrue, onFalse, done]).symm
  refine Build.Writes.perm ?_ hPlaced
  apply (hBranches onTrue onFalse).bind_nil
  intro _
  apply (Build.Writes.place onTrue).bind_cons
  intro _
  apply (Build.Writes.jump done).bind_nil
  intro _
  apply (Build.Writes.place onFalse).bind_cons
  intro _
  apply (Build.Writes.jump done).bind_nil
  intro _
  apply (Build.Writes.place done).bind_cons
  intro _
  exact .define _ _

theorem Stmt.lowerBreak_writes
    (line : Nat) :
    Build.Writes [] (lowerBreak line) := by
  intro b hOwn
  cases hExits : b.loopExits with
  | nil =>
      have hAfter : (lowerBreak line).after b = b := by
        rw [Build.after, lowerBreak, Step.get_bind, hExits]
        rfl
      rw [hAfter]
      exact .refl b
  | cons exit rest =>
      have hAfter : (lowerBreak line).after b =
          b.jump exit := by
        rw [Build.after, lowerBreak, Step.get_bind, hExits]
        rfl
      rw [hAfter]
      exact .jump b exit

/- A step places the labels it takes over, no others. -/
def Build.Discipline.writes : Build.Discipline where
  Holds := fun _ _ own _ _ _ x => Writes own x
  pure := fun _ => .pure _
  throw := .throw
  afford := fun hFirst _ => hFirst
  supplyOf := fun hFirst _ hSecond => hFirst.bindOf hSecond
  bindOf := fun hFirst _ hSecond => hFirst.bind hSecond
  perm := .perm
  labelIf := fun needed _ hNext => .labelIf needed hNext
  place := fun _ => .place _
  jump := fun _ => .jump _
  branch := fun _ _ _ _ => .branch _ _ _
  append := fun _ _ _ _ _ _ => .append _
  define := fun _ _ _ _ _ => .define _ _
  allocate := fun _ _ _ => .allocate _ _
  merge := fun hBranches _ =>
    Lowering.merge_writes hBranches
  insideLoop := fun _ hBody => .insideLoop _ hBody
  leaving := id
  getBind := fun hNext b => hNext b b
  leave := fun line _ => Stmt.lowerBreak_writes line

/- All three uses write without placing a label given. -/
structure Lowering.Writes (lowering : Lowering) : Prop where
  reduce : Build.Writes [] lowering.reduce
  convert : ∀ t, Build.Writes [] (lowering.convert t)
  branches :
    ∀ onTrue onFalse,
      Build.Writes [] (lowering.branches onTrue onFalse)

theorem Build.Writes.convertValue
    (value : Value)
    (target : Ty)
    (line : Nat) :
    Build.Writes []
      (Build.convertValue value target line) :=
  (Discipline.convertValue .writes target line
    (fun _ hMem => hMem)
    (Nat.le_refl 1) : Discipline.Supplies .writes [] 1 _ _)

theorem Lowering.convertEach_writes
    {args : List Lowering}
    (params : List Ty)
    (hArgs : ∀ arg ∈ args, arg.Writes) :
    Build.Writes [] (convertEach args params) := by
  induction args generalizing params with
  | nil => exact .pure []
  | cons arg rest ih =>
      rcases List.forall_mem_cons.mp hArgs with
        ⟨hArg, hRest⟩
      cases params with
      | nil => exact .pure []
      | cons param params =>
          apply (hArg.convert param).bind_nil
          intro value
          apply (ih params hRest).bind_nil
          intro values
          exact .pure _

theorem RawPlace.address_writes
    (place : RawPlace) :
    Build.Writes [] place.address :=
  place.address_respects (D := .writes)
    (Identifier.storedIn_storage _) []

/- Writing an expression places no outer label. -/
theorem RawExpr.lower_writes
    (e : RawExpr) :
    e.lower.Writes := by
  have hRespects := e.lower_respects (D := .writes)
    (Identifier.storedIn_storage _)
  exact ⟨hRespects.reduce [], hRespects.convert [],
    hRespects.branches.on⟩

theorem Place.address_writes
    (place : Place) :
    Build.Writes [] place.address :=
  place.raw_eq.1 ▸ place.raw.address_writes

theorem Expr.lower_writes
    (e : Expr) :
    e.lower.Writes :=
  e.raw_eq.1 ▸ e.raw.lower_writes

theorem Expr.lowerAll_writes
    (es : List Expr) :
    ∀ lowering ∈ Expr.lowerAll es, lowering.Writes := by
  induction es with
  | nil => simp [Expr.lowerAll]
  | cons e rest ih =>
      rw [Expr.lowerAll]
      exact List.forall_mem_cons.mpr ⟨e.lower_writes, ih⟩

namespace Stmt

/- Neither of the labels around is placed. -/
def Between.Writes (x : Between) : Prop :=
  ∀ before after, Build.Writes [] (x before after)

/- A choice places neither of its labels. -/
def ChoiceWrites (choice : Choice) : Prop :=
  ∀ onTrue onFalse, Build.Writes [] (choice onTrue onFalse)

/- Writing a statement places neither label around. -/
theorem raw_writes
    (st : RawStmt) :
    Between.Writes st.lower :=
  raw_respects_on .writes st

theorem lower_writes
    (st : Stmt) :
    Between.Writes st.lower :=
  st.raw_eq.1 ▸ raw_writes st.raw

end Stmt

------------------------------------------------------------
-- Emission
------------------------------------------------------------

variable {reach : Builder.Reach} {given own : List Label}

/- What is emitted within bounds is so in wider ones. -/
theorem Build.Emits.widen
    {α : Type}
    {wider : Builder.Reach}
    {more : List Label}
    {x : Build α}
    (hEmits : Build.Emits reach given own x)
    (hGiven : ∀ l ∈ given, l ∈ more)
    (hSlots : ∀ slot ∈ reach.slots, slot ∈ wider.slots)
    (hBreaks : reach.breaks = true → wider.breaks = true) :
    Build.Emits wider more own x := by
  intro b a b' hOk
  rcases hEmits hOk with ⟨code, hCode⟩
  exact ⟨code, hCode.widen hGiven hSlots hBreaks⟩

/- What a choice leaves when it is an operand. -/
theorem Lowering.merge_eq_ok
    {branches : Choice}
    {b b' : Builder}
    {v : Value}
    (hOk : merge branches b = .ok v b') :
    ∃ b₁,
      branches (some b.reserve.1)
          (some b.reserve.2.reserve.1)
          b.reserve.2.reserve.2.reserve.2 = .ok () b₁ ∧
        v = .temporary b₁.nextTemporary .bool ∧
        b' =
          b₁.join b.reserve.1 b.reserve.2.reserve.1
            b.reserve.2.reserve.2.reserve.1 := by
  unfold merge at hOk
  rcases Build.label_bind_eq_ok.mp hOk with ⟨_, rfl, hOk⟩
  rcases Build.label_bind_eq_ok.mp hOk with ⟨_, rfl, hOk⟩
  rcases Build.label_bind_eq_ok.mp hOk with ⟨_, rfl, hOk⟩
  rcases Step.bind_eq_ok.mp hOk with ⟨_, b₁, hChoice, hOk⟩
  refine ⟨b₁, hChoice, ?_⟩
  cases hOk
  exact ⟨congrArg (Value.temporary · Ty.bool)
    (b₁.nextTemporary_joined _ _ _), b₁.join_eq _ _ _⟩

theorem Lowering.merge_emits
    {branches : Choice}
    (hBranches :
      ∀ onTrue onFalse : Label, Build.Emits reach
        [onTrue, onFalse] []
        (branches (some onTrue) (some onFalse))) :
    Build.Emits reach [] [] (merge branches) := by
  intro b v b' hOk
  rcases merge_eq_ok hOk with ⟨b₁, hChoice, -, rfl⟩
  rcases hBranches _ _ hChoice with ⟨code, hCode⟩
  exact ⟨_, .merge rfl rfl rfl hCode⟩

/- A break leaves for the exit of the innermost loop. -/
theorem Stmt.lowerBreak_emits
    (hBreaks : reach.breaks = true)
    (line : Nat) :
    Build.Emits reach given [] (lowerBreak line) := by
  intro b a b' hOk
  rw [lowerBreak, Step.get_bind] at hOk
  cases hExits : b.loopExits with
  | nil =>
      rw [hExits] at hOk
      cases hOk
  | cons exit exits =>
      rw [hExits] at hOk
      rcases Step.modify_eq_ok.mp hOk with rfl
      unfold Builder.jump
      cases hBetween : b.between with
      | true => exact ⟨_, .refl⟩
      | false =>
          have hAppend :
              b.append (.jump exit) =
                { b.write (.instruction (.jump exit)) with
                  between := true } := by
            simp [Builder.append, Builder.reopen, hBetween,
              Instruction.endsBlock]
          simp only [Bool.false_eq_true, if_false]
          rw [hAppend]
          exact ⟨_, .leave hBreaks hBetween hExits⟩

/- A step that succeeds emits code within its bounds. -/
def Build.Discipline.emits : Build.Discipline where
  Holds := fun reach given own _ _ _ x =>
    Emits reach given own x
  pure := fun _ => .pure _
  throw := .throw
  afford := fun hFirst _ => hFirst
  supplyOf := fun hFirst _ hSecond =>
    (hFirst.widen (by simp) (fun _ hMem => hMem) id).bindOf
      hSecond
  bindOf := fun hFirst _ hSecond => hFirst.bindOf fun a _ =>
    hSecond a
  perm := .perm
  labelIf := fun needed _ hNext => .labelIf needed hNext
  place := .place
  jump := .jump
  branch := fun _ hTrue hFalse _ => .branch hTrue hFalse
  append := fun hSimple hDest hTargets hSlots _ _ =>
    .append hSimple hDest (by simp [hTargets]) hSlots
  define := fun hSimple hDest hSlots _ _ =>
      .define hSimple hDest hSlots
  allocate := fun x hSlot _ => .allocate x.ty hSlot
  merge := fun hBranches _ => Lowering.merge_emits hBranches
  insideLoop := .insideLoop
  leaving := fun hFirst =>
    hFirst.widen (fun _ hMem => hMem) (fun _ hMem => hMem)
      (by simp)
  getBind := .getBind
  leave := fun line hBreaks =>
    Stmt.lowerBreak_emits hBreaks line

/- A choice that leaves for no labels but its own. -/
def Choice.Emits
    (reach : Builder.Reach)
    (choice : Choice) : Prop :=
  ∀ ⦃given : List Label⦄ ⦃onTrue onFalse : Option Label⦄,
    (∀ l ∈ onTrue, l ∈ given) →
    (∀ l ∈ onFalse, l ∈ given) →
    Build.Emits reach given [] (choice onTrue onFalse)

/- All three uses keep to the slots. -/
structure Lowering.Emits
    (reach : Builder.Reach)
    (lowering : Lowering) : Prop where
  reduce : ∀ given, Build.Emits reach given []
    lowering.reduce
  convert :
    ∀ given t, Build.Emits reach given []
      (lowering.convert t)
  branches : Choice.Emits reach lowering.branches

/- An expression keeps to the slots of its variables. -/
theorem Expr.lower_emits
    (e : Expr)
    (hStored :
      Identifier.StoredIn e.variables reach.slots) :
    e.lower.Emits reach := by
  have hRespects :=
    Expr.lower_respects (D := .emits) e hStored
  have hWiden :
      ∀ {α : Type} {given more : List Label} {x : Build α},
        Build.Emits ⟨reach.slots, false⟩ given [] x →
        (∀ l ∈ given, l ∈ more) →
          Build.Emits reach more [] x :=
    fun hEmits hGiven =>
      hEmits.widen hGiven (fun _ hMem => hMem) (by simp)
  exact ⟨fun given => hWiden (hRespects.reduce [])
    (by simp), fun given t =>
      hWiden (hRespects.convert [] t) (by simp),
    fun given onTrue onFalse hTrue hFalse =>
      hWiden (hRespects.branches hTrue hFalse) fun _ hMem =>
        hMem⟩

namespace Stmt

/-
  Code that leaves for the label before it and the label
  behind it only if it needs them.
-/
def Between.Emits
    (reach : Builder.Reach)
    (needsBefore needsAfter : Bool)
    (x : Between) : Prop :=
  ∀ ⦃given : List Label⦄ ⦃before after : Label⦄,
    (needsBefore = true → before ∈ given) →
    (needsAfter = true → after ∈ given) →
    Build.Emits reach given [] (x before after)

/- Writing a statement keeps to its labels and slots. -/
theorem lower_emits
    (hBreaks : reach.breaks = true)
    (st : Stmt)
    (hStored :
      Identifier.StoredIn st.variables reach.slots) :
    Between.Emits reach st.needsBefore st.needsAfter
      st.lower :=
  lower_respects (D := .emits) hBreaks st hStored

/- So does writing the rest of a sequence. -/
theorem lowerTail_emits
    (hBreaks : reach.breaks = true)
    (sts : List Stmt)
    (hStored : Identifier.StoredIn (Stmt.allVariables sts)
      reach.slots)
    (headNeedsAfter needed : Bool)
    (rest : Between)
    (hTail : lowerTail sts = some (needed, rest)) :
    rest.Emits reach needed
      (lastNeedsAfter headNeedsAfter sts) :=
  (lowerTail_respects (D := .emits) hBreaks sts hStored
    headNeedsAfter _ hTail).2

end Stmt

end Bracketry
