import Bracketry.Proofs.Discipline.Instances

/-
  This file shows that the code of a statement allocates a
  slot before all accesses to it, if the variable in it is
  only mentioned in the block or branch that it is declared
  in.

  A declaration opens the slot.  It stays open behind the
  body of a loop that tests last, which always runs, but not
  behind a branch or behind a loop that tests first.

  Main declarations:
    * `Stmt.Opens` and `Stmt.Houses`
    * `Stmt.lower_opens` and `Stmt.lower_houses`
-/

namespace Bracketry

/- None of some variables is stored in a slot. -/
def Identifier.Apart
    (slot : String)
    (xs : List Identifier) : Prop :=
  ∀ x ∈ xs, x.storage ≠ slot

namespace Stmt

/- A statement that declares the variable in a slot. -/
def Opens (slot : String) : Stmt → Prop
| .assign (.var x) value _ =>
    x.storage = slot ∧ Identifier.Apart slot value.variables
| .doWhile body _ _ => body.Opens slot
| _ => False

mutual

/-
  The variable in a slot is declared in a block or a branch
  of the statement and mentioned nowhere else.
-/
def Houses (slot : String) : Stmt → Prop
| .sequence head tail =>
    head.Opens slot ∨
      (head.Houses slot ∧
        Identifier.Apart slot (allVariables tail)) ∨
      (Identifier.Apart slot head.variables ∧
        SomeHouses slot tail)
| .ifThen condition body _ =>
    Identifier.Apart slot condition.variables ∧
      (body.Opens slot ∨ body.Houses slot)
| .ifElse condition body other _ =>
    Identifier.Apart slot condition.variables ∧
      (((body.Opens slot ∨ body.Houses slot) ∧
          Identifier.Apart slot other.variables) ∨
        (Identifier.Apart slot body.variables ∧
          (other.Opens slot ∨ other.Houses slot)))
| .whileLoop condition body _ =>
    Identifier.Apart slot condition.variables ∧
      (body.Opens slot ∨ body.Houses slot)
| .doWhile body condition _ =>
    body.Houses slot ∧
      Identifier.Apart slot condition.variables
| _ => False

/- The same of statements in a row. -/
def SomeHouses (slot : String) : List Stmt → Prop
| [] => False
| st :: rest =>
    st.Opens slot ∨
      (st.Houses slot ∧
        Identifier.Apart slot (allVariables rest)) ∨
      (Identifier.Apart slot st.variables ∧
        SomeHouses slot rest)

end

end Stmt

theorem Identifier.StoredIn.without
    {reach : Builder.Reach}
    {slot : String}
    {xs : List Identifier}
    (hStored : StoredIn xs reach.slots)
    (hApart : Apart slot xs) :
    StoredIn xs (reach.without slot).slots := by
  intro x hMem
  refine List.mem_filter.mpr ⟨hStored x hMem, ?_⟩
  simpa using hApart x hMem

namespace Stmt

open Builder (Reach)

variable {slot : String} {reach : Reach}
variable {given : List Label}

/- Storing a first value opens the slot of a variable. -/
theorem lowerAssign_opens
    {x : Identifier}
    {value : Expr}
    (hSlot : x.storage = slot)
    (hIn : slot ∈ reach.slots)
    (hStored :
      Identifier.StoredIn value.variables reach.slots)
    (hApart : Identifier.Apart slot value.variables) :
    Build.Opens slot reach given []
      (lowerAssign (.var x) value) := by
  subst hSlot
  have hNarrow :
      Identifier.StoredIn value.variables
        (reach.narrow x.storage).slots :=
    hStored.without hApart
  have hAddress :
      Build.Opens x.storage reach given []
        (Place.address (.var x)) := by
    rw [Place.address]
    exact (Build.Opens.allocate x.ty hIn).bind fun _ =>
      .pure _
  refine Build.Opens.before
    ((Expr.lower_emits value hNarrow).convert [] x.ty) ?_
  intro stored
  apply hAddress.bindOf
  intro address hAt
  have hTarget :
      Identifier.StoredIn (Place.variables (.var x))
        reach.slots := by
    rw [Place.variables]
    exact List.forall_mem_singleton.mpr hIn
  refine .append trivial rfl (by simp [Instruction.targets])
    ?_
  exact fun slot hSlot => Place.stored_of_address hTarget
    hAt slot hSlot

------------------------------------------------------------
-- Code Between Two Labels
------------------------------------------------------------

/- Code that leaves a slot in some state. -/
def Between.Leaves
    (state : List Label → List Label → Build Unit → Prop)
    (needsBefore needsAfter : Bool)
    (x : Between) : Prop :=
  ∀ ⦃given : List Label⦄ ⦃before after : Label⦄,
    (needsBefore = true → before ∈ given) →
    (needsAfter = true → after ∈ given) →
    state given [] (x before after)

/- Code that allocates a slot before it accesses it. -/
abbrev Between.Opens
    (slot : String)
    (reach : Reach) :
    Bool → Bool → Between → Prop :=
  Between.Leaves (Build.Opens slot reach)

/- Code that accesses a slot behind its allocation. -/
abbrev Between.Houses
    (slot : String)
    (reach : Reach) :
    Bool → Bool → Between → Prop :=
  Between.Leaves (Build.Houses slot reach)

/- A state of a slot stays if code keeps to a reach. -/
structure Stays
    (later : Reach)
    (state : List Label → List Label → Build Unit → Prop) :
      Prop where
  labelIf :
    ∀ {given own : List Label} {f : Label → Build Unit}
    (needed : Bool),
    (∀ l, state (l.kept needed ++ given) (l.kept needed ++
      own) (f l)) →
    state given own (Build.label >>= f)
  insideLoop :
    ∀ {given own : List Label} {exit : Label}
      {x : Build Unit},
    exit ∈ given → state given own x →
    state given own (Build.insideLoop exit x)
  behind : ∀ {given own : List Label} {x : Build Unit}
    {f : Unit → Build Unit}, state given [] x →
    (∀ a, Build.Emits later given own (f a)) →
      state given own (x >>= f)

theorem opens_stays :
    Stays reach (Build.Opens slot reach) :=
  ⟨fun needed h => .labelIf needed h, .insideLoop, .bind⟩

theorem houses_stays :
    Stays (reach.without slot) (Build.Houses slot reach) :=
  ⟨fun needed h => .labelIf needed h, .insideLoop, .behind⟩

theorem Between.Opens.houses
    {x : Between}
    {needsBefore needsAfter : Bool}
    (h : Between.Opens slot reach needsBefore
      needsAfter x) :
    Between.Houses slot reach needsBefore needsAfter x :=
  fun _ _ _ hBefore hAfter => (h hBefore hAfter).houses

variable {body : Between} {condition : Choice}
variable {bodyNeedsBefore bodyNeedsAfter : Bool}

section

variable {later : Reach}
variable {state : List Label → List Label →
    Build Unit → Prop}

/- The body of a loop that tests last always runs. -/
theorem lowerDoWhile_leaves
    (hStays : Stays later state)
    (hBody : body.Leaves state bodyNeedsBefore
      bodyNeedsAfter)
    (hCondition : Choice.Emits later condition) :
    Between.Leaves state true true
      (lowerDoWhile body condition) := by
  intro given before after hBefore hAfter
  refine hStays.labelIf true fun test => ?_
  have hBefore' : before ∈ test :: given :=
    List.mem_cons_of_mem test (hBefore rfl)
  have hAfter' : after ∈ test :: given :=
    List.mem_cons_of_mem test (hAfter rfl)
  have hInner :
      state (test :: given) [] (body before test) :=
    hBody (fun _ => hBefore') (fun _ => List.mem_cons_self)
  refine hStays.behind (hStays.insideLoop hAfter' hInner)
    fun _ => ?_
  apply (Build.Emits.place List.mem_cons_self).bindCons
  intro _
  exact hCondition (by simpa using hBefore')
    (by simpa using hAfter')

/- So does the first statement of a row. -/
theorem follow_leaves
    {head : Between}
    {tail : Option (Bool × Between)}
    {headNeedsBefore headNeedsAfter needsAfter : Bool}
    (hStays : Stays later state)
    (hHead : head.Leaves state headNeedsBefore
      headNeedsAfter)
    (hTail :
      ∀ needed rest, tail = some (needed, rest) →
        rest.Emits later needed needsAfter)
    (hLast : tail = none → needsAfter = headNeedsAfter) :
    Between.Leaves state headNeedsBefore needsAfter
      (follow head headNeedsAfter tail) := by
  intro given before after hBefore hAfter
  match tail with
  | none =>
      rw [hLast rfl] at hAfter
      exact hHead hBefore hAfter
  | some (needed, rest) =>
      refine hStays.labelIf (headNeedsAfter || needed)
        fun between => ?_
      have hHead' :
          state (between.kept (headNeedsAfter || needed) ++
            given) [] (head before between) := by
        apply hHead
        · exact fun hNeeded =>
            List.mem_append_right _ (hBefore hNeeded)
        · intro hNeeded
          simp [hNeeded]
      refine hStays.behind hHead' fun _ => ?_
      apply Build.Emits.placeIf
      · exact fun hNeeded =>
          List.mem_append_left _
            (Label.mem_kept.mpr ⟨hNeeded, rfl⟩)
      · apply hTail needed rest rfl
        · intro hNeeded
          simp [hNeeded]
        · exact fun hNeeded =>
            List.mem_append_right _ (hAfter hNeeded)

end

theorem lowerIf_houses
    (hCondition :
      Choice.Emits (reach.without slot) condition)
    (hBody : body.Houses slot reach bodyNeedsBefore
      bodyNeedsAfter) :
    Between.Houses slot reach false true
      (lowerIf condition body) := by
  intro given before after _ hAfter
  apply Build.Houses.label
  intro onTrue
  have hAfter' : after ∈ onTrue :: given :=
    List.mem_cons_of_mem onTrue (hAfter rfl)
  have hChoice :
      Build.Emits (reach.without slot) (onTrue :: given) []
        (condition (some onTrue) (some after)) :=
    hCondition (by simp) (by simpa using hAfter')
  refine Build.Houses.before hChoice fun _ => ?_
  refine Build.Houses.beforeCons
    (Build.Emits.place List.mem_cons_self) fun _ => ?_
  exact hBody (fun _ => List.mem_cons_self)
    (fun _ => hAfter')

section

variable {other : Between}
variable {otherNeedsBefore otherNeedsAfter : Bool}

/- The condition and its first label come first. -/
theorem lowerIfElse_houses
    (hCondition :
      Choice.Emits (reach.without slot) condition)
    (hBranches :
      ∀ {given : List Label} {after onTrue onFalse : Label},
      after ∈ given → onTrue ∈ given → onFalse ∈ given →
      Build.Houses slot reach given [onFalse] (do
        body onTrue after
        Build.jump after
        Build.place onFalse
        other onFalse after)) :
    Between.Houses slot reach false true
      (lowerIfElse condition body other) := by
  intro given before after _ hAfter
  apply Build.Houses.label
  intro onTrue
  apply Build.Houses.label
  intro onFalse
  have hTrue : onTrue ∈ onFalse :: onTrue :: given := by
    simp
  refine Build.Houses.perm ?_
    (List.Perm.swap onFalse onTrue [])
  have hChoice :
      Build.Emits (reach.without slot)
        (onFalse :: onTrue :: given) []
        (condition (some onTrue) (some onFalse)) :=
    hCondition (by simp) (by simp)
  refine Build.Houses.before hChoice fun _ => ?_
  refine Build.Houses.beforeCons (Build.Emits.place hTrue)
    fun _ => ?_
  exact hBranches (by simp [hAfter rfl]) hTrue
    List.mem_cons_self

theorem lowerIfElse_houses_body
    (hCondition :
      Choice.Emits (reach.without slot) condition)
    (hBody : body.Houses slot reach bodyNeedsBefore
      bodyNeedsAfter)
    (hOther :
      other.Emits (reach.without slot)
        otherNeedsBefore otherNeedsAfter) :
    Between.Houses slot reach false true
      (lowerIfElse condition body other) := by
  refine lowerIfElse_houses hCondition
    fun hAfter hTrue hFalse => ?_
  refine Build.Houses.behind
    (hBody (fun _ => hTrue) (fun _ => hAfter)) fun _ => ?_
  apply (Build.Emits.jump hAfter).bind
  intro _
  apply (Build.Emits.place hFalse).bindCons
  intro _
  exact hOther (fun _ => hFalse) (fun _ => hAfter)

theorem lowerIfElse_houses_other
    (hCondition :
      Choice.Emits (reach.without slot) condition)
    (hBody :
      body.Emits (reach.without slot) bodyNeedsBefore
        bodyNeedsAfter)
    (hOther :
      other.Houses slot reach otherNeedsBefore
        otherNeedsAfter) :
    Between.Houses slot reach false true
      (lowerIfElse condition body other) := by
  refine lowerIfElse_houses hCondition
    fun hAfter hTrue hFalse => ?_
  refine Build.Houses.before
    (hBody (fun _ => hTrue) (fun _ => hAfter)) fun _ => ?_
  refine Build.Houses.before (Build.Emits.jump hAfter)
    fun _ => ?_
  refine Build.Houses.beforeCons (Build.Emits.place hFalse)
    fun _ => ?_
  exact hOther (fun _ => hFalse) (fun _ => hAfter)

end

theorem lowerWhile_houses
    (hCondition :
      Choice.Emits (reach.without slot) condition)
    (hBody : body.Houses slot reach bodyNeedsBefore
      bodyNeedsAfter) :
    Between.Houses slot reach true true
      (lowerWhile condition body) := by
  intro given before after hBefore hAfter
  apply Build.Houses.label
  intro start
  have hBefore' : before ∈ start :: given :=
    List.mem_cons_of_mem start (hBefore rfl)
  have hAfter' : after ∈ start :: given :=
    List.mem_cons_of_mem start (hAfter rfl)
  have hChoice :
      Build.Emits (reach.without slot) (start :: given) []
        (condition (some start) (some after)) :=
    hCondition (by simp) (by simpa using hAfter')
  refine Build.Houses.before hChoice fun _ => ?_
  refine Build.Houses.beforeCons
    (Build.Emits.place List.mem_cons_self) fun _ => ?_
  have hInner :
      Build.Houses slot reach (start :: given) []
        (body start before) :=
    hBody (fun _ => List.mem_cons_self) (fun _ => hBefore')
  refine Build.Houses.behind
    (Build.Houses.insideLoop hAfter' hInner) fun _ => ?_
  exact .jump hBefore'

/- A slot is housed behind the first statement of a row. -/
theorem follow_houses_tail
    {head rest : Between}
    {needed headNeedsBefore headNeedsAfter needsAfter :
      Bool}
    (hHead :
      head.Emits (reach.without slot) headNeedsBefore
        headNeedsAfter)
    (hTail : rest.Houses slot reach needed needsAfter) :
    Between.Houses slot reach headNeedsBefore needsAfter
      (follow head headNeedsAfter
        (some (needed, rest))) := by
  intro given before after hBefore hAfter
  apply Build.Houses.labelIf (headNeedsAfter || needed)
  intro between
  have hHead' :
      Build.Emits (reach.without slot)
        (between.kept (headNeedsAfter || needed) ++ given)
          []
        (head before between) := by
    apply hHead
    · exact fun hNeeded =>
        List.mem_append_right _ (hBefore hNeeded)
    · intro hNeeded
      simp [hNeeded]
  refine Build.Houses.before hHead' fun _ => ?_
  apply Build.Houses.placeIf
  · exact fun hNeeded =>
      List.mem_append_left _
        (Label.mem_kept.mpr ⟨hNeeded, rfl⟩)
  · apply hTail
    · intro hNeeded
      simp [hNeeded]
    · exact fun hNeeded =>
        List.mem_append_right _ (hAfter hNeeded)

------------------------------------------------------------
-- Statements
------------------------------------------------------------

/- A declaration is written by allocating its slot first. -/
theorem lower_opens
    (hBreaks : reach.breaks = true) :
    ∀ st : Stmt,
      Identifier.StoredIn st.variables reach.slots →
      st.Opens slot →
      Between.Opens slot reach st.needsBefore
        st.needsAfter st.lower
| .assign (.var x) value line, hStored, hOpens => by
    rw [Stmt.variables] at hStored
    rcases Identifier.storedIn_append.mp hStored with
      ⟨hTarget, hValue⟩
    rw [Stmt.Opens] at hOpens
    have hIn : slot ∈ reach.slots := by
      rw [← hOpens.1]
      exact hTarget x (Place.root_mem_variables (.var x))
    rw [lower]
    exact fun _ _ _ _ _ =>
      lowerAssign_opens hOpens.1 hIn hValue hOpens.2
| .doWhile body condition line, hStored, hOpens => by
    rw [Stmt.variables] at hStored
    rcases Identifier.storedIn_append.mp hStored with
      ⟨hBody, hLast⟩
    rw [Stmt.Opens] at hOpens
    rw [lower, needsBefore, needsAfter]
    exact lowerDoWhile_leaves opens_stays
      (lower_opens hBreaks body hBody hOpens)
      (Expr.lower_emits condition hLast).branches
| .empty _, _, hOpens => absurd hOpens id
| .sequence _ _, _, hOpens => absurd hOpens id
| .ifThen _ _ _, _, hOpens => absurd hOpens id
| .ifElse _ _ _ _, _, hOpens => absurd hOpens id
| .whileLoop _ _ _, _, hOpens => absurd hOpens id
| .assign (.element _ _ _) _ _, _, hOpens =>
    absurd hOpens id
| .assign (.member _ _ _ _) _ _, _, hOpens =>
    absurd hOpens id
| .ret _ _ _, _, hOpens => absurd hOpens id
| .breakLoop _, _, hOpens => absurd hOpens id
| .evaluate _ _, _, hOpens => absurd hOpens id

/- What a branch declares stays in its code. -/
theorem branch_houses
    {st : Stmt}
    (hBreaks : reach.breaks = true)
    (hStored : Identifier.StoredIn st.variables reach.slots)
    (hCases : st.Opens slot ∨ st.Houses slot)
    (hHouses :
      st.Houses slot →
        Between.Houses slot reach st.needsBefore
          st.needsAfter st.lower) :
    Between.Houses slot reach st.needsBefore st.needsAfter
      st.lower := by
  rcases hCases with hOpens | hInside
  · exact (lower_opens hBreaks st hStored hOpens).houses
  · exact hHouses hInside

/- Without more statements the head is the last of them. -/
theorem lastNeedsAfter_of_none
    {sts : List Stmt}
    (headNeedsAfter : Bool)
    (hNone : lowerTail sts = none) :
    lastNeedsAfter headNeedsAfter sts = headNeedsAfter := by
  cases sts with
  | nil => rw [lastNeedsAfter]
  | cons st rest =>
      rw [lowerTail] at hNone
      cases hNone

/- What a statement declares stays in its row. -/
theorem row_houses
    {st : Stmt}
    {sts : List Stmt}
    (hBreaks : reach.breaks = true)
    (hFirst : Identifier.StoredIn st.variables reach.slots)
    (hRest : Identifier.StoredIn (allVariables sts)
      reach.slots)
    (hCases :
      st.Opens slot ∨
        (st.Houses slot ∧
          Identifier.Apart slot (allVariables sts)) ∨
        (Identifier.Apart slot st.variables ∧
          SomeHouses slot sts))
    (hHead :
      st.Houses slot →
        Between.Houses slot reach st.needsBefore
          st.needsAfter st.lower)
    (hTail :
      SomeHouses slot sts →
        ∀ needed rest, lowerTail sts = some (needed, rest) →
          rest.Houses slot reach needed
            (lastNeedsAfter st.needsAfter sts)) :
    Between.Houses slot reach st.needsBefore
      (lastNeedsAfter st.needsAfter sts)
      (follow st.lower st.needsAfter (lowerTail sts)) := by
  have hBreaks' : (reach.without slot).breaks = true :=
    hBreaks
  have hLast : lowerTail sts = none →
      lastNeedsAfter st.needsAfter sts = st.needsAfter :=
    lastNeedsAfter_of_none st.needsAfter
  rcases hCases with
    hOpens | ⟨hInside, hApart⟩ | ⟨hApart, hInside⟩
  · have hOpened := follow_leaves opens_stays
      (lower_opens hBreaks st hFirst hOpens)
      (lowerTail_emits hBreaks sts hRest st.needsAfter)
        hLast
    exact Between.Opens.houses hOpened
  · exact follow_leaves houses_stays (hHead hInside)
      (lowerTail_emits hBreaks' sts (hRest.without hApart)
        st.needsAfter) hLast
  · cases sts with
    | nil => exact absurd hInside id
    | cons other others =>
        rw [lowerTail]
        exact follow_houses_tail
          (lower_emits hBreaks' st (hFirst.without hApart))
          (hTail hInside _ _ (by rw [lowerTail]))

mutual

/- Code keeps the slots declared in it. -/
theorem lower_houses
    (hBreaks : reach.breaks = true) :
    ∀ st : Stmt,
      Identifier.StoredIn st.variables reach.slots →
      st.Houses slot →
      Between.Houses slot reach st.needsBefore
        st.needsAfter st.lower
| .sequence head tail, hStored, hHouses => by
    rw [Stmt.variables] at hStored
    rcases Identifier.storedIn_append.mp hStored with
      ⟨hHead, hTail⟩
    rw [Stmt.Houses] at hHouses
    rw [lower, needsBefore, needsAfter]
    exact row_houses hBreaks hHead hTail hHouses
      (lower_houses hBreaks head hHead)
      (fun hInside => lowerTail_houses hBreaks tail hTail
        hInside _)
| .ifThen condition body line, hStored, hHouses => by
    rw [Stmt.variables] at hStored
    rcases Identifier.storedIn_append.mp hStored with
      ⟨hFirst, hBody⟩
    rw [Stmt.Houses] at hHouses
    rcases hHouses with ⟨hApart, hCases⟩
    rw [lower, needsBefore, needsAfter]
    · exact lowerIf_houses
        (Expr.lower_emits condition
          (hFirst.without hApart)).branches
        (branch_houses hBreaks hBody hCases
          (lower_houses hBreaks body hBody))
    all_goals simp
| .ifElse condition body other line, hStored, hHouses => by
    rw [Stmt.variables] at hStored
    rcases Identifier.storedIn_append.mp hStored with
      ⟨hLeft, hOther⟩
    rcases Identifier.storedIn_append.mp hLeft with
      ⟨hFirst, hBody⟩
    rw [Stmt.Houses] at hHouses
    rcases hHouses with ⟨hApart, hBranches⟩
    have hBreaks' : (reach.without slot).breaks = true :=
      hBreaks
    have hCondition :=
      (Expr.lower_emits condition
        (hFirst.without hApart)).branches
    rw [lower, needsBefore, needsAfter]
    · rcases hBranches with
        ⟨hCases, hApart'⟩ | ⟨hApart', hCases⟩
      · exact lowerIfElse_houses_body hCondition
          (branch_houses hBreaks hBody hCases
            (lower_houses hBreaks body hBody))
          (lower_emits hBreaks' other
            (hOther.without hApart'))
      · exact lowerIfElse_houses_other hCondition
          (lower_emits hBreaks' body
            (hBody.without hApart'))
          (branch_houses hBreaks hOther hCases
            (lower_houses hBreaks other hOther))
    all_goals simp
| .whileLoop condition body line, hStored, hHouses => by
    rw [Stmt.variables] at hStored
    rcases Identifier.storedIn_append.mp hStored with
      ⟨hFirst, hBody⟩
    rw [Stmt.Houses] at hHouses
    rcases hHouses with ⟨hApart, hCases⟩
    rw [lower, needsBefore, needsAfter]
    exact lowerWhile_houses
      (Expr.lower_emits condition
        (hFirst.without hApart)).branches
      (branch_houses hBreaks hBody hCases
        (lower_houses hBreaks body hBody))
| .doWhile body condition line, hStored, hHouses => by
    rw [Stmt.variables] at hStored
    rcases Identifier.storedIn_append.mp hStored with
      ⟨hBody, hLast⟩
    rw [Stmt.Houses] at hHouses
    rcases hHouses with ⟨hInside, hApart⟩
    rw [lower, needsBefore, needsAfter]
    exact lowerDoWhile_leaves houses_stays
      (lower_houses hBreaks body hBody hInside)
      (Expr.lower_emits condition
        (hLast.without hApart)).branches
| .empty _, _, hHouses => absurd hHouses id
| .assign _ _ _, _, hHouses => absurd hHouses id
| .ret _ _ _, _, hHouses => absurd hHouses id
| .breakLoop _, _, hHouses => absurd hHouses id
| .evaluate _ _, _, hHouses => absurd hHouses id

/- So does the code of the rest of a sequence. -/
theorem lowerTail_houses
    (hBreaks : reach.breaks = true) :
    ∀ sts : List Stmt,
      Identifier.StoredIn (Stmt.allVariables sts)
        reach.slots →
      SomeHouses slot sts →
      ∀ (headNeedsAfter needed : Bool) (rest : Between),
        lowerTail sts = some (needed, rest) →
        rest.Houses slot reach needed
          (lastNeedsAfter headNeedsAfter sts)
| [], _, hHouses, _, _, _, _ => absurd hHouses id
| st :: sts, hStored, hHouses, headNeedsAfter, needed, rest,
    hTail => by
    rw [Stmt.allVariables] at hStored
    rcases Identifier.storedIn_append.mp hStored with
      ⟨hFirst, hRest⟩
    rw [SomeHouses] at hHouses
    rw [lowerTail] at hTail
    cases hTail
    rw [lastNeedsAfter]
    exact row_houses hBreaks hFirst hRest hHouses
      (lower_houses hBreaks st hFirst)
      (fun hInside => lowerTail_houses hBreaks sts hRest
        hInside _)

end

end Stmt

end Bracketry
