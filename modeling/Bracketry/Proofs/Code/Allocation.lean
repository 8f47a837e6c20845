import Bracketry.Proofs.Code.Dominance

/-
  This file follows one slot through the steps that write
  code.

  A step opens the slot if it allocates it before any access
  and goes on to where all later code is.  It houses the
  slot if all accesses stand in a stretch behind the
  allocation.

  Main declarations:
    * `Build.Opens` and `Build.Houses`
    * `Build.Houses.before` and `Build.Houses.behind`
-/

namespace Bracketry

namespace Instruction

/- An instruction allocates a slot. -/
def Allocates
    (slot : String)
    (i : Instruction) : Prop :=
  ∃ t, i = .allocate slot t

/- Reading, writing or dividing a slot by its name. -/
def Accesses
    (slot : String)
    (i : Instruction) : Prop :=
  i.accessed? = some slot

/- Whether an instruction allocates a slot. -/
def allocates
    (slot : String) :
    Instruction → Bool
| .allocate other _ => other == slot
| _ => false

theorem allocates_eq_true
    {slot : String}
    {i : Instruction}
    (hAllocates : i.Allocates slot) :
    i.allocates slot = true := by
  rcases hAllocates with ⟨t, rfl⟩
  exact beq_self_eq_true slot

end Instruction

namespace Builder

/- All slots but one. -/
def Reach.without
    (reach : Reach)
    (slot : String) : Reach :=
  { reach with
    slots := reach.slots.filter fun other => other ≠ slot }

theorem Reach.not_mem_without
    (reach : Reach)
    (slot : String) :
    slot ∉ (reach.without slot).slots := by
  simp [without]

/- All slots but one, and no way out of a loop. -/
def Reach.narrow
    (reach : Reach)
    (slot : String) : Reach :=
  { reach.without slot with breaks := false }

namespace Emits

variable {reach : Reach} {given own : List Label}
variable {b b' : Builder} {code : List Line} {slot : String}

/- What is emitted within bounds is so in wider ones. -/
theorem widen
    {wider : Reach}
    {more : List Label}
    (h : Emits reach given own b code b')
    (hGiven : ∀ l ∈ given, l ∈ more)
    (hSlots : ∀ slot ∈ reach.slots, slot ∈ wider.slots)
    (hBreaks : reach.breaks = true → wider.breaks = true) :
    Emits wider more own b code b' := by
  induction h generalizing more with
  | refl => exact .refl
  | trans _ _ ih₁ ih₂ =>
      exact (ih₁ hGiven).trans (ih₂ hGiven)
  | perm _ hPerm ih => exact (ih hGiven).perm hPerm
  | placed _ ih =>
      refine .placed (ih ?_)
      intro l hMem
      rcases List.mem_cons.mp hMem with rfl | hIn
      · exact List.mem_cons_self
      · exact List.mem_cons_of_mem _ (hGiven l hIn)
  | spare _ ih => exact .spare (ih hGiven)
  | label l hBetween => exact .label l hBetween
  | simple hOpen hSimple hDest hTargets hIn =>
      exact .simple hOpen hSimple hDest
        (fun l hTarget => hGiven l (hTargets l hTarget))
        (fun slot hSlot => hSlots slot (hIn slot hSlot))
  | define hOpen hSimple hDest hIn =>
      exact .define hOpen hSimple hDest
        fun slot hSlot => hSlots slot (hIn slot hSlot)
  | allocate hOpen hNew hIn =>
      exact .allocate hOpen hNew (hSlots _ hIn)
  | leave hLeaves hOpen hExits =>
      exact .leave (hBreaks hLeaves) hOpen hExits
  | inside hExit _ ih =>
      exact .inside (hGiven _ hExit) (ih hGiven)
  | merge hT hF hD _ ih =>
      refine .merge hT hF hD (ih ?_)
      intro l hMem
      simp only [List.mem_cons] at hMem ⊢
      exact hMem.imp id (Or.imp id (hGiven l))

theorem widen_without
    (h : Emits (reach.without slot) given own b code b') :
    Emits reach given own b code b' :=
  h.widen (fun _ hMem => hMem)
    (fun _ hMem => (List.mem_filter.mp hMem).1) id

/- Code that leaves for nothing outside. -/
theorem widen_narrow
    (h : Emits (reach.narrow slot) [] [] b code b') :
    Emits reach given [] b code b' :=
  h.widen (by simp)
    (fun _ hMem => (List.mem_filter.mp hMem).1)
    (by simp [Reach.narrow])

/- Slots out of reach are not accessed. -/
theorem avoids
    (h : Emits reach given own b code b')
    (hSlot : slot ∉ reach.slots) :
    Line.Avoids (Instruction.Accesses slot) code := by
  have hSingle :
      ∀ {i : Instruction},
        (∀ other ∈ i.accessed?, other ∈ reach.slots) →
        Line.Avoids (Instruction.Accesses slot)
          [.instruction i] := by
    intro i hIn j hMem hAccess
    cases List.mem_singleton.mp hMem
    exact hSlot (hIn slot hAccess)
  induction h with
  | refl => exact Line.avoids_nil
  | trans _ _ ih₁ ih₂ =>
      exact Line.avoids_append.mpr ⟨ih₁, ih₂⟩
  | perm _ _ ih => exact ih
  | placed _ ih => exact ih
  | spare _ ih => exact ih
  | label => exact fun _ hMem => by simp at hMem
  | simple _ _ _ _ hIn => exact hSingle hIn
  | define _ _ _ hIn => exact hSingle hIn
  | allocate =>
      exact hSingle
        (by
          simp [Instruction.accessed?,
            Instruction.address?])
  | leave =>
      exact hSingle
        (by
          simp [Instruction.accessed?,
            Instruction.address?])
  | inside _ _ ih => exact ih
  | @merge _ _ b' _ _ _ _ _ _ _ _ ih =>
      refine Line.avoids_append.mpr ⟨ih, ?_⟩
      intro i hMem hAccess
      cases hBetween : b'.between <;>
        simp only [joint, hBetween] at hMem <;>
        simp at hMem <;>
        rcases hMem with rfl | rfl | rfl <;> cases hAccess

/- Slots out of reach are not allocated. -/
theorem not_allocated
    (h : Emits reach given own b code b')
    (hSlot : slot ∉ reach.slots)
    (hNew : slot ∉ b.allocated) :
    slot ∉ b'.allocated := by
  induction h with
  | trans _ _ ih₁ ih₂ => exact ih₂ (ih₁ hNew)
  | perm _ _ ih => exact ih hNew
  | placed _ ih => exact ih hNew
  | spare _ ih => exact ih hNew
  | inside _ _ ih => exact ih hNew
  | merge _ _ _ _ ih => exact ih hNew
  | allocate _ _ hIn =>
      intro hMem
      rcases List.mem_cons.mp hMem with rfl | hOld
      · exact hSlot hIn
      · exact hNew hOld
  | _ => exact hNew

/- Closed code leaves for its own labels only. -/
theorem closed
    (h : Emits reach [] own b code b')
    (hBreaks : reach.breaks = false) :
    ∀ l ∈ Line.targets code, l ∈ Line.labels code := by
  intro l hTarget
  rcases h.placed_of_target hTarget with
    hGiven | hExit | hLabel
  · cases hGiven
  · rw [hBreaks] at hExit
    cases hExit.1
  · exact hLabel

/- What is opened is confined, if it places no label. -/
theorem confines
    {opening use : Instruction → Prop}
    (h : Emits reach given [] b code b')
    (hOpens : Line.Opens opening use code) :
    Line.Confines opening use
      (fun l => b.nextLabel ≤ l.number ∧
        l.number < b'.nextLabel)
      code := by
  rcases h.labels_perm with ⟨fresh, hPerm, hNodup, hRange⟩
  rw [List.nil_append] at hPerm
  refine hOpens.confines (hPerm.nodup_iff.mpr hNodup) ?_
  exact fun l hMem => hRange l (hPerm.mem_iff.mp hMem)

end Emits

end Builder

namespace Build

open Builder (Reach)

variable {α β : Type} {slot : String} {reach : Reach}
variable {given own own₁ own₂ : List Label}

/- A step allocates a slot before it accesses it. -/
def Opens
    (slot : String)
    (reach : Reach)
    (given own : List Label)
    (x : Build α) : Prop :=
  ∀ ⦃b : Builder⦄ ⦃a : α⦄ ⦃b' : Builder⦄,
    slot ∉ b.allocated →
    x b = .ok a b' →
    ∃ code, b.Emits reach given own code b' ∧
      Line.Opens (Instruction.Allocates slot)
        (Instruction.Accesses slot) code

namespace Opens

/- A slot is allocated, maybe in a block of its own. -/
theorem allocate
    (t : Ty)
    (hSlot : slot ∈ reach.slots) :
    Opens slot reach given [] (Build.allocate slot t) := by
  intro b a b' hNew hOk
  rcases Step.modify_eq_ok.mp hOk with rfl
  have hOut : slot ∉ (reach.narrow slot).slots :=
    reach.not_mem_without slot
  rcases Builder.Emits.reopen (reach.narrow slot) [] b with
    ⟨opened, hReopen⟩
  have hStill : slot ∉ b.reopen.allocated :=
    hReopen.not_allocated hOut hNew
  have hAllocate :
      b.reopen.Emits reach given []
        [.instruction (.allocate slot t)]
        (b.allocate slot t) := by
    rw [Builder.Emits.allocate_of_new t hNew]
    exact .allocate (Builder.Emits.between_reopen b)
      hStill hSlot
  refine ⟨_, hReopen.widen_narrow.andThen hAllocate, ?_⟩
  exact ⟨opened, .allocate slot t, [], rfl, ⟨t, rfl⟩, nofun,
    hReopen.avoids hOut, hReopen.closed rfl⟩

variable {x : Build α} {f : α → Build β}

/- Code in front that knows nothing of the slot. -/
theorem before
    (hFirst : Emits (reach.narrow slot) [] [] x)
    (hSecond : ∀ a, Opens slot reach given own (f a)) :
    Opens slot reach given own (x >>= f) := by
  intro b a b' hNew hOk
  rcases Step.bind_eq_ok.mp hOk with ⟨a₁, b₁, hX, hF⟩
  rcases hFirst hX with ⟨first, hEmits⟩
  have hOut : slot ∉ (reach.narrow slot).slots :=
    reach.not_mem_without slot
  rcases hSecond a₁ (hEmits.not_allocated hOut hNew) hF with
    ⟨second, hEmits', hOpens⟩
  exact ⟨first ++ second,
    hEmits.widen_narrow.andThen hEmits',
    hOpens.prepend (hEmits.avoids hOut) (hEmits.closed rfl)⟩

/- More code behind does not matter. -/
theorem bindOf
    (hFirst : Opens slot reach given [] x)
    (hSecond :
      ∀ a, (∃ b b', x b = .ok a b') →
        Emits reach given own (f a)) :
    Opens slot reach given own (x >>= f) := by
  intro b a b' hNew hOk
  rcases Step.bind_eq_ok.mp hOk with ⟨a₁, b₁, hX, hF⟩
  rcases hFirst hNew hX with ⟨first, hEmits, hOpens⟩
  rcases hSecond a₁ ⟨b, b₁, hX⟩ hF with ⟨second, hSecond⟩
  exact ⟨_, hEmits.andThen hSecond, hOpens.append second⟩

theorem bind
    (hFirst : Opens slot reach given [] x)
    (hSecond : ∀ a, Emits reach given own (f a)) :
    Opens slot reach given own (x >>= f) :=
  hFirst.bindOf fun a _ => hSecond a

theorem labelIf
    (needed : Bool)
    {f : Label → Build α}
    (h :
      ∀ l, Opens slot reach (l.kept needed ++ given)
        (l.kept needed ++ own) (f l)) :
    Opens slot reach given own (Build.label >>= f) := by
  intro b a b' hNew hOk
  rcases label_bind_eq_ok.mp hOk with ⟨_, rfl, hRest⟩
  have hNew' : slot ∉ b.reserve.2.allocated := hNew
  rcases h _ hNew' hRest with ⟨code, hEmits, hOpens⟩
  cases needed with
  | true => exact ⟨code, .placed hEmits, hOpens⟩
  | false => exact ⟨code, .spare hEmits, hOpens⟩

theorem insideLoop
    {exit : Label}
    {body : Build α}
    (hExit : exit ∈ given)
    (h : Opens slot reach given own body) :
    Opens slot reach given own
      (Build.insideLoop exit body) := by
  intro b a b' hNew hOk
  rcases insideLoop_eq_ok.mp hOk with ⟨b₁, hBody, rfl⟩
  have hNew' :
      slot ∉
        { b with
          loopExits :=
            exit :: b.loopExits }.allocated := hNew
  rcases h hNew' hBody with ⟨code, hEmits, hOpens⟩
  exact ⟨code, .inside hExit hEmits, hOpens⟩

end Opens

/-
  A step allocates a slot and accesses it only in a stretch
  behind, which can be entered by fresh labels only.
-/
def Houses
    (slot : String)
    (reach : Reach)
    (given own : List Label)
    (x : Build α) : Prop :=
  ∀ ⦃b : Builder⦄ ⦃a : α⦄ ⦃b' : Builder⦄,
    slot ∉ b.allocated →
    Builder.Emits.Known given own b →
    x b = .ok a b' →
    ∃ code, b.Emits reach given own code b' ∧
      Line.Confines (Instruction.Allocates slot)
        (Instruction.Accesses slot)
        (fun l => b.nextLabel ≤ l.number ∧
          l.number < b'.nextLabel)
        code

/- What is opened is housed if no more code follows. -/
theorem Opens.houses
    {x : Build α}
    (h : Opens slot reach given [] x) :
    Houses slot reach given [] x := by
  intro b a b' hNew _ hOk
  rcases h hNew hOk with ⟨code, hEmits, hOpens⟩
  exact ⟨code, hEmits, hEmits.confines hOpens⟩

namespace Houses

variable {x : Build α} {f : α → Build β}

/- Code in front that knows nothing of the slot. -/
theorem beforeOf
    (hFirst : Emits (reach.without slot) given own₁ x)
    (hSecond : ∀ a, Houses slot reach given own₂ (f a)) :
    Houses slot reach given (own₁ ++ own₂) (x >>= f) := by
  intro b a b' hNew hKnown hOk
  rcases Step.bind_eq_ok.mp hOk with ⟨a₁, b₁, hX, hF⟩
  rcases hFirst hX with ⟨first, hEmits₁⟩
  have hOut := reach.not_mem_without slot
  have hKnown₁ : Builder.Emits.Known given own₁ b :=
    hKnown.restrict fun l hMem =>
      List.mem_append_left _ hMem
  have hKnown₂ : Builder.Emits.Known given own₂ b₁ :=
    hKnown.later hEmits₁ fun l hMem =>
      List.mem_append_right _ hMem
  rcases hSecond a₁ (hEmits₁.not_allocated hOut hNew)
    hKnown₂ hF with
    ⟨second, hEmits₂, hConfines⟩
  refine ⟨first ++ second,
    hEmits₁.widen_without.trans hEmits₂, ?_⟩
  have hLe := hEmits₁.labels_le
  have hTargets :
      ∀ l ∈ Line.targets (first ++ []),
        ¬ (b₁.nextLabel ≤ l.number ∧
          l.number < b'.nextLabel) := by
    intro l hTarget hFresh
    rw [List.append_nil] at hTarget
    have hLt := hEmits₁.target_lt hKnown₁ hTarget
    omega
  have hAround := hConfines.surround first []
    (hEmits₁.avoids hOut) Line.avoids_nil hTargets
  rw [List.append_nil] at hAround
  exact hAround.weaken fun l hFresh =>
    ⟨Nat.le_trans hLe hFresh.1, hFresh.2⟩

theorem before
    (hFirst : Emits (reach.without slot) given [] x)
    (hSecond : ∀ a, Houses slot reach given own (f a)) :
    Houses slot reach given own (x >>= f) :=
  beforeOf hFirst hSecond

/- A label is placed in front of more of them. -/
theorem beforeCons
    {l : Label}
    (hFirst : Emits (reach.without slot) given [l] x)
    (hSecond : ∀ a, Houses slot reach given own (f a)) :
    Houses slot reach given (l :: own) (x >>= f) :=
  beforeOf hFirst hSecond

/- Code behind that knows nothing of the slot. -/
theorem behind
    (hFirst : Houses slot reach given [] x)
    (hSecond : ∀ a,
      Emits (reach.without slot) given own (f a)) :
    Houses slot reach given own (x >>= f) := by
  intro b a b' hNew hKnown hOk
  rcases Step.bind_eq_ok.mp hOk with ⟨a₁, b₁, hX, hF⟩
  have hKnown₁ : Builder.Emits.Known given [] b :=
    hKnown.restrict (by simp)
  rcases hFirst hNew hKnown₁ hX with
    ⟨first, hEmits₁, hConfines⟩
  rcases hSecond a₁ hF with ⟨second, hEmits₂⟩
  have hOut := reach.not_mem_without slot
  refine ⟨first ++ second,
    hEmits₁.andThen hEmits₂.widen_without, ?_⟩
  have hLe := hEmits₂.labels_le
  have hTargets :
      ∀ l ∈ Line.targets ([] ++ second),
        ¬ (b.nextLabel ≤ l.number ∧
          l.number < b₁.nextLabel) := by
    intro l hTarget hFresh
    rw [List.nil_append] at hTarget
    exact Builder.Emits.not_target_of_fresh hEmits₁ hEmits₂
      hKnown hFresh hTarget
  have hAround := hConfines.surround [] second
    Line.avoids_nil (hEmits₂.avoids hOut) hTargets
  rw [List.nil_append] at hAround
  exact hAround.weaken fun l hFresh =>
    ⟨hFresh.1, Nat.lt_of_lt_of_le hFresh.2 hLe⟩

theorem labelIf
    (needed : Bool)
    {f : Label → Build α}
    (h :
      ∀ l, Houses slot reach (l.kept needed ++ given)
        (l.kept needed ++ own) (f l)) :
    Houses slot reach given own (Build.label >>= f) := by
  intro b a b' hNew hKnown hOk
  rcases label_bind_eq_ok.mp hOk with ⟨_, rfl, hRest⟩
  have hNew' : slot ∉ b.reserve.2.allocated := hNew
  rcases h _ hNew' (hKnown.kept needed) hRest with
    ⟨code, hEmits, hConfines⟩
  have hWeaker :
      Line.Confines (Instruction.Allocates slot)
        (Instruction.Accesses slot)
        (fun l => b.nextLabel ≤ l.number ∧
          l.number < b'.nextLabel)
        code :=
    hConfines.weaken fun l hFresh =>
      ⟨Nat.le_of_succ_le hFresh.1, hFresh.2⟩
  cases needed with
  | true => exact ⟨code, .placed hEmits, hWeaker⟩
  | false => exact ⟨code, .spare hEmits, hWeaker⟩

theorem label
    {f : Label → Build α}
    (h : ∀ l,
      Houses slot reach (l :: given) (l :: own) (f l)) :
    Houses slot reach given own (Build.label >>= f) :=
  labelIf true h

theorem placeIf
    {needed : Bool}
    {l : Label}
    (hGiven : needed = true → l ∈ given)
    (h : Houses slot reach given own x) :
    Houses slot reach given (l.kept needed ++ own)
      (if needed = true then Build.place l >>= fun _ =>
        x else x) := by
  cases needed with
  | true =>
      exact beforeCons (.place (hGiven rfl)) fun _ => h
  | false => exact h

theorem perm
    (h : Houses slot reach given own₁ x)
    (hPerm : own₁.Perm own₂) :
    Houses slot reach given own₂ x := by
  intro b a b' hNew hKnown hOk
  have hKnown' : Builder.Emits.Known given own₁ b :=
    hKnown.restrict fun l hMem => hPerm.mem_iff.mp hMem
  rcases h hNew hKnown' hOk with ⟨code, hEmits, hConfines⟩
  exact ⟨code, hEmits.perm hPerm, hConfines⟩

theorem insideLoop
    {exit : Label}
    {body : Build α}
    (hExit : exit ∈ given)
    (h : Houses slot reach given own body) :
    Houses slot reach given own
      (Build.insideLoop exit body) := by
  intro b a b' hNew hKnown hOk
  rcases insideLoop_eq_ok.mp hOk with ⟨b₁, hBody, rfl⟩
  have hNew' :
      slot ∉
        { b with
          loopExits :=
            exit :: b.loopExits }.allocated := hNew
  rcases h hNew' (hKnown.inside hExit) hBody with
    ⟨code, hEmits, hConfines⟩
  exact ⟨code, .inside hExit hEmits, hConfines⟩

end Houses

end Build

end Bracketry
