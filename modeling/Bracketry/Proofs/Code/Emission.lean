import Bracketry.Proofs.Code.Writing

/-
  This file says what code a step of writing that succeeds
  can emit, line by line.

  Such a step may leave for labels that it was given or has
  handed out, and for the exits of the loops around.  It
  places the labels that it takes over and most of those it
  hands out, each once.  Every invariant of generated code
  follows by induction on this relation.

  Main declarations:
    * `Builder.Emits` and `Build.Emits`
    * `Build.Emits.bind` and `Build.Emits.label`
-/

namespace Bracketry

namespace Instruction

/- The labels that control may leave for. -/
def targets : Instruction → List Label
| .jump target => [target]
| .branch _ onTrue onFalse => [onTrue, onFalse]
| _ => []

/- The number of the temporary that is defined. -/
def dest? : Instruction → Option Nat
| .load dest _ _ => some dest
| .arithmetic dest _ _ _ _ => some dest
| .negate dest _ _ => some dest
| .compare dest _ _ _ _ => some dest
| .convert dest _ _ _ => some dest
| .element dest _ _ _ _ => some dest
| .call dest _ _ _ => dest
| .merge dest _ _ => some dest
| _ => none

/- The address through which memory is accessed. -/
def address? : Instruction → Option Value
| .load _ _ address => some address
| .store _ address => some address
| .element _ _ base _ _ => some base
| _ => none

end Instruction

/- The name of an operand that is a named register. -/
def Value.name? : Value → Option String
| .named name _ => some name
| _ => none

namespace Instruction

/- The slot that is accessed by its name. -/
def accessed? (i : Instruction) : Option String :=
  i.address?.bind Value.name?

/-
  Instructions that may stand anywhere in a block, and whose
  text is known.
-/
def IsSimple : Instruction → Prop
| .allocate _ _ => False
| .merge _ _ _ => False
| .verbatim _ => False
| _ => True

/- What defines a temporary stays in its block. -/
theorem targets_of_dest
    {i : Instruction}
    {dest : Nat}
    (hDest : i.dest? = some dest) :
    i.targets = [] := by
  cases i <;> simp_all [dest?, targets]

theorem endsBlock_of_dest
    {i : Instruction}
    {dest : Nat}
    (hDest : i.dest? = some dest) :
    i.endsBlock = false := by
  cases i <;> simp_all [dest?, endsBlock]

end Instruction

namespace Builder

/-
  How both outcomes of a choice come together: the block of
  each leaves for the same label, and the operand is told by
  the block that control came from.  An open block in front
  is closed first.
-/
def joint
    (b : Builder)
    (onTrue onFalse done : Label) : List Line :=
  (if b.between then [] else
    [.instruction (.jump onTrue)]) ++
    [.label onTrue, .instruction (.jump done),
      .label onFalse, .instruction (.jump done),
      .label done,
      .instruction (.merge b.nextTemporary onTrue onFalse)]

/- The state behind such a joint. -/
def join
    (b : Builder)
    (onTrue onFalse done : Label) : Builder :=
  { b with
    nextTemporary := b.nextTemporary + 1
    lines :=
      b.lines ++ (b.joint onTrue onFalse done).toArray
    between := false }

/- The steps that write all of a joint but its last line. -/
def joined
    (b : Builder)
    (onTrue onFalse done : Label) : Builder :=
  ((((b.place onTrue).jump done).place onFalse).jump
    done).place done

theorem nextTemporary_joined
    (b : Builder)
    (onTrue onFalse done : Label) :
    (b.joined onTrue onFalse done).nextTemporary =
      b.nextTemporary := by
  cases hBetween : b.between <;>
    simp [joined, place, jump, append, reopen, write,
      Instruction.endsBlock, hBetween]

theorem join_eq
    (b : Builder)
    (onTrue onFalse done : Label) :
    (b.joined onTrue onFalse done).number.2.append
        (.merge (b.joined onTrue onFalse done).nextTemporary
          onTrue onFalse) =
      b.join onTrue onFalse done := by
  rw [nextTemporary_joined]
  cases hBetween : b.between <;>
    simp [joined, join, joint, number, place, jump, append,
      reopen, write, Instruction.endsBlock, hBetween] <;>
    apply Array.toList_inj.mp <;> simp

/-
  What emitted code may reach besides labels: the slots that
  it may allocate or access, and whether it may leave the
  loop around it.
-/
structure Reach where
  slots : List String
  breaks : Bool

/-
  The second state comes from the first by writing `code`,
  where control may leave for the labels `given`, and the
  labels `own` are placed.
-/
inductive Emits
    (reach : Reach) :
    List Label → List Label → Builder → List Line →
      Builder → Prop
| refl {given b} :
    Emits reach given [] b [] b
| trans {given own₁ own₂ b b₁ b₂ code₁ code₂} :
    Emits reach given own₁ b code₁ b₁ →
    Emits reach given own₂ b₁ code₂ b₂ →
    Emits reach given (own₁ ++ own₂) b (code₁ ++ code₂) b₂
| perm {given own₁ own₂ b b' code} :
    Emits reach given own₁ b code b' →
    own₁.Perm own₂ →
    Emits reach given own₂ b code b'
| placed {given own b b' code} :
    Emits reach (b.reserve.1 :: given) (b.reserve.1 :: own)
      b.reserve.2 code b' →
    Emits reach given own b code b'
| spare {given own b b' code} :
    Emits reach given own b.reserve.2 code b' →
    Emits reach given own b code b'
| label {given b} (l : Label) :
    b.between = true →
    Emits reach given [l] b [.label l]
      { b.write (.label l) with between := false }
| simple {given b} {i : Instruction} :
    b.between = false →
    i.IsSimple →
    i.dest? = none →
    (∀ l ∈ i.targets, l ∈ given) →
    (∀ slot ∈ i.accessed?, slot ∈ reach.slots) →
    Emits reach given [] b [.instruction i]
      { b.write (.instruction i) with
        between := i.endsBlock }
| define {given b} {i : Instruction} :
    b.between = false →
    i.IsSimple →
    i.dest? = some b.nextTemporary →
    (∀ slot ∈ i.accessed?, slot ∈ reach.slots) →
    Emits reach given [] b [.instruction i]
      { b.number.2.write (.instruction i) with
        between := false }
| allocate {given b} {slot : String} {t : Ty} :
    b.between = false →
    slot ∉ b.allocated →
    slot ∈ reach.slots →
    Emits reach given [] b [.instruction (.allocate slot t)]
      { b.write (.instruction (.allocate slot t)) with
        allocated := slot :: b.allocated
        between := false }
| leave {given b} {exit : Label} {exits : List Label} :
    reach.breaks = true →
    b.between = false →
    b.loopExits = exit :: exits →
    Emits reach given [] b [.instruction (.jump exit)]
      { b.write (.instruction (.jump exit)) with
        between := true }
| inside {given own b b' code} {exit : Label} :
    exit ∈ given →
    Emits reach given own
      { b with loopExits := exit :: b.loopExits } code b' →
    Emits reach given own b code
      { b' with loopExits := b'.loopExits.tail }
| merge {given b b' code} {onTrue onFalse done : Label} :
    b.reserve.1 = onTrue →
    b.reserve.2.reserve.1 = onFalse →
    b.reserve.2.reserve.2.reserve.1 = done →
    Emits reach (onTrue :: onFalse :: given) []
      b.reserve.2.reserve.2.reserve.2 code b' →
    Emits reach given [] b
      (code ++ b'.joint onTrue onFalse done)
      (b'.join onTrue onFalse done)

namespace Emits

variable {reach : Reach} {given own own₁ own₂ : List Label}
variable {b b' b₁ : Builder} {code : List Line}

/- A step behind another that places no given label. -/
theorem andThen
    {first second : List Line}
    (h₁ : Emits reach given [] b first b₁)
    (h₂ : Emits reach given own b₁ second b') :
    Emits reach given own b (first ++ second) b' :=
  h₁.trans h₂

------------------------------------------------------------
-- Blocks
------------------------------------------------------------

theorem place
    (reach : Reach)
    (b : Builder)
    {l : Label}
    (hGiven : l ∈ given) :
    ∃ code, Emits reach given [l] b code (b.place l) := by
  unfold Builder.place
  cases hBetween : b.between with
  | true =>
      simp only [if_true]
      exact ⟨_, .label l hBetween⟩
  | false =>
      have hJump :
          Emits reach given [] b [.instruction (.jump l)]
            { b.write (.instruction (.jump l)) with
              between := true } :=
        .simple hBetween trivial rfl
          (by simpa [Instruction.targets] using hGiven)
          (by
            simp [Instruction.accessed?,
              Instruction.address?])
      exact ⟨_, hJump.andThen (.label l rfl)⟩

theorem reopen
    (reach : Reach)
    (given : List Label)
    (b : Builder) :
    ∃ code, Emits reach given [] b code b.reopen := by
  unfold Builder.reopen
  cases hBetween : b.between with
  | true =>
      simp only [if_true]
      have hGiven : b.reserve.1 ∈ b.reserve.1 :: given :=
        List.mem_cons_self
      rcases place reach b.reserve.2 hGiven with
        ⟨code, hPlace⟩
      exact ⟨code, .placed hPlace⟩
  | false => exact ⟨_, .refl⟩

/- Behind a terminator a fresh label is placed. -/
theorem reopen_eq
    (b : Builder) :
    b.reopen =
      if b.between then
        { b with
          nextLabel := b.nextLabel + 1
          lines := b.lines.push (.label b.reserve.1)
          between := false }
      else b := by
  unfold Builder.reopen
  cases hBetween : b.between with
  | true =>
      simp [Builder.reserve, Builder.place, Builder.write,
        hBetween]
  | false => rfl

theorem between_reopen
    (b : Builder) :
    b.reopen.between = false := by
  rw [reopen_eq]
  split
  · rfl
  · simp_all

variable {i : Instruction}

theorem append
    (hSimple : i.IsSimple)
    (hDest : i.dest? = none)
    (hTargets : ∀ l ∈ i.targets, l ∈ given)
    (hSlots : ∀ slot ∈ i.accessed?, slot ∈ reach.slots) :
    ∃ code, Emits reach given [] b code (b.append i) := by
  rcases reopen reach given b with ⟨code, hReopen⟩
  have hWrite :=
    Emits.simple (between_reopen b) hSimple hDest
    hTargets hSlots
  exact ⟨_, hReopen.andThen hWrite⟩

/- Handing out a number does not depend on open blocks. -/
theorem reopen_number
    (b : Builder) :
    b.number.2.reopen = b.reopen.number.2 := by
  rw [reopen_eq, reopen_eq]
  by_cases hBetween : b.between = true <;>
    simp [Builder.number, Builder.reserve, hBetween]

theorem nextTemporary_reopen
    (b : Builder) :
    b.reopen.nextTemporary = b.nextTemporary := by
  rw [reopen_eq]
  split <;> rfl

/- A temporary is defined in the block that is open then. -/
theorem define_reopen
    (hSimple : i.IsSimple)
    (hDest : i.dest? = some b.nextTemporary)
    (hSlots : ∀ slot ∈ i.accessed?, slot ∈ reach.slots) :
    Emits reach given [] b.reopen [.instruction i]
      (b.number.2.append i) := by
  rw [← nextTemporary_reopen] at hDest
  rw [Builder.append, reopen_number,
    Instruction.endsBlock_of_dest hDest]
  exact .define (between_reopen b) hSimple hDest hSlots

theorem defined
    (hSimple : i.IsSimple)
    (hDest : i.dest? = some b.nextTemporary)
    (hSlots : ∀ slot ∈ i.accessed?, slot ∈ reach.slots) :
    ∃ code, Emits reach given [] b code
      (b.number.2.append i) := by
  rcases reopen reach given b with ⟨code, hReopen⟩
  exact ⟨_,
    hReopen.andThen (define_reopen hSimple hDest hSlots)⟩

theorem jump
    {l : Label}
    (hGiven : l ∈ given) :
    ∃ code, Emits reach given [] b code (b.jump l) := by
  unfold Builder.jump
  cases hBetween : b.between with
  | true => exact ⟨_, .refl⟩
  | false =>
      exact append trivial rfl
        (by simpa [Instruction.targets] using hGiven)
        (by
          simp [Instruction.accessed?,
            Instruction.address?])

/- A branch that goes on at a fresh label behind it. -/
theorem appendPlace
    (hSimple : i.IsSimple)
    (hDest : i.dest? = none)
    (hTargets : ∀ l ∈ i.targets, l ∈ b.reserve.1 :: given)
    (hSlots : ∀ slot ∈ i.accessed?, slot ∈ reach.slots) :
    ∃ code,
      Emits reach given [] b code
        ((b.reserve.2.append i).place b.reserve.1) := by
  rcases append (b := b.reserve.2) hSimple hDest hTargets
    hSlots with
    ⟨first, hFirst⟩
  have hGiven : b.reserve.1 ∈ b.reserve.1 :: given :=
    List.mem_cons_self
  rcases place reach (b.reserve.2.append i) hGiven with
    ⟨second, hSecond⟩
  exact ⟨_, .placed (hFirst.andThen hSecond)⟩

theorem branch
    {condition : Value}
    {onTrue onFalse : Option Label}
    (hTrue : ∀ l ∈ onTrue, l ∈ given)
    (hFalse : ∀ l ∈ onFalse, l ∈ given) :
    ∃ code,
      Emits reach given [] b code
        (b.branch condition onTrue onFalse) := by
  have hSlots :
      ∀ t f, ∀ slot ∈
        (Instruction.branch condition t f).accessed?,
          slot ∈ reach.slots := by
    simp [Instruction.accessed?, Instruction.address?]
  cases onTrue with
  | some t =>
      have hT : t ∈ given := hTrue t rfl
      cases onFalse with
      | some f =>
          have hF : f ∈ given := hFalse f rfl
          refine append trivial rfl ?_ (hSlots t f)
          simp [Instruction.targets, hT, hF]
      | none =>
          refine appendPlace
            (i := .branch condition t b.reserve.1)
            trivial rfl ?_ (hSlots t _)
          simp [Instruction.targets, hT]
  | none =>
      cases onFalse with
      | some f =>
          have hF : f ∈ given := hFalse f rfl
          refine appendPlace
            (i := .branch condition b.reserve.1 f)
            trivial rfl ?_ (hSlots _ f)
          simp [Instruction.targets, hF]
      | none => exact ⟨_, .refl⟩

/- Neither does noting that a slot is allocated. -/
theorem reopen_allocated
    (b : Builder)
    (allocated : List String) :
    { b with allocated := allocated }.reopen =
      { b.reopen with allocated := allocated } := by
  rw [reopen_eq, reopen_eq]
  by_cases hBetween : b.between = true <;>
    simp [Builder.reserve, hBetween]

theorem allocated_reopen
    (b : Builder) :
    b.reopen.allocated = b.allocated := by
  rw [reopen_eq]
  split <;> rfl

/- What allocating a new slot writes. -/
theorem allocate_of_new
    {slot : String}
    (t : Ty)
    (hNew : slot ∉ b.allocated) :
    b.allocate slot t =
      { b.reopen.write
        (.instruction (.allocate slot t)) with
        allocated := slot :: b.reopen.allocated
        between := false } := by
  unfold Builder.allocate
  simp only [hNew, if_false]
  rw [Builder.append, reopen_allocated, allocated_reopen]
  rfl

theorem allocateSlot
    {slot : String}
    (t : Ty)
    (hSlot : slot ∈ reach.slots) :
    ∃ code, Emits reach given [] b code
      (b.allocate slot t) := by
  by_cases hOld : slot ∈ b.allocated
  · unfold Builder.allocate
    simp only [hOld, if_true]
    exact ⟨_, .refl⟩
  · rcases reopen reach given b with ⟨code, hReopen⟩
    have hNew : slot ∉ b.reopen.allocated := by
      rwa [allocated_reopen]
    rw [allocate_of_new t hOld]
    exact ⟨_, hReopen.andThen
      (.allocate (between_reopen b) hNew hSlot)⟩

end Emits

end Builder

------------------------------------------------------------
-- Steps
------------------------------------------------------------

/- A label, if it is needed. -/
def Label.kept
    (needed : Bool)
    (l : Label) : List Label :=
  if needed then [l] else []

@[simp] theorem Label.mem_kept
    {needed : Bool}
    {k l : Label} :
    k ∈ l.kept needed ↔ needed = true ∧ k = l := by
  cases needed <;> simp [kept]

namespace Build

variable {α β : Type}

/- A step that succeeds emits code within these bounds. -/
def Emits
    (reach : Builder.Reach)
    (given own : List Label)
    (x : Build α) : Prop :=
  ∀ ⦃b : Builder⦄ ⦃a : α⦄ ⦃b' : Builder⦄,
    x b = .ok a b' → ∃ code, b.Emits reach given own code b'

namespace Emits

variable {reach : Builder.Reach}
variable {given own own₁ own₂ : List Label} {x : Build α}
variable {f : α → Build β} {l : Label}

theorem perm
    (h : Emits reach given own₁ x)
    (hPerm : own₁.Perm own₂) :
    Emits reach given own₂ x := by
  intro b a b' hOk
  rcases h hOk with ⟨code, hEmits⟩
  exact ⟨code, hEmits.perm hPerm⟩

theorem pure
    (a : α) :
    Emits reach given [] (pure a : Build α) := by
  intro b a' b' hOk
  rcases Step.pure_eq_ok.mp hOk with ⟨-, rfl⟩
  exact ⟨_, .refl⟩

theorem throw
    (fault : Fault) :
    Emits reach given own (throw fault : Build α) := by
  intro b a b' hOk
  cases hOk

/- What follows may use what the first results can be. -/
theorem bindOf
    (hFirst : Emits reach given own₁ x)
    (hSecond :
      ∀ a, (∃ b b', x b = .ok a b') →
        Emits reach given own₂ (f a)) :
    Emits reach given (own₁ ++ own₂) (x >>= f) := by
  intro b a b' hOk
  rcases Step.bind_eq_ok.mp hOk with ⟨a₁, b₁, hX, hF⟩
  rcases hFirst hX with ⟨first, hFirst⟩
  rcases hSecond a₁ ⟨b, b₁, hX⟩ hF with ⟨second, hSecond⟩
  exact ⟨_, hFirst.trans hSecond⟩

theorem bind
    (hFirst : Emits reach given [] x)
    (hSecond : ∀ a, Emits reach given own (f a)) :
    Emits reach given own (x >>= f) :=
  hFirst.bindOf fun a _ => hSecond a

/- Looking at the state emits nothing. -/
theorem getBind
    {f : Builder → Build α}
    (h : ∀ b, Emits reach given own (f b)) :
    Emits reach given own (get >>= f) :=
  fun b _ _ hOk => h b hOk

/- A label is placed, with more of them behind it. -/
theorem bindCons
    (hFirst : Emits reach given [l] x)
    (hSecond : ∀ a, Emits reach given own (f a)) :
    Emits reach given (l :: own) (x >>= f) :=
  hFirst.bindOf fun a _ => hSecond a

/- A label handed out is placed and may be left for. -/
theorem label
    {f : Label → Build α}
    (h : ∀ l, Emits reach (l :: given) (l :: own) (f l)) :
    Emits reach given own (Build.label >>= f) := by
  intro b a b' hOk
  rcases label_bind_eq_ok.mp hOk with ⟨_, rfl, hRest⟩
  rcases h _ hRest with ⟨code, hEmits⟩
  exact ⟨code, .placed hEmits⟩

/- A label handed out is placed where it is needed. -/
theorem labelIf
    (needed : Bool)
    {f : Label → Build α}
    (h :
      ∀ l, Emits reach (l.kept needed ++ given)
        (l.kept needed ++ own) (f l)) :
    Emits reach given own (Build.label >>= f) := by
  cases needed with
  | true => exact label h
  | false =>
      intro b a b' hOk
      rcases label_bind_eq_ok.mp hOk with ⟨_, rfl, hRest⟩
      rcases h _ hRest with ⟨code, hEmits⟩
      exact ⟨code, .spare hEmits⟩

theorem place
    (hGiven : l ∈ given) :
    Emits reach given [l] (Build.place l) := by
  intro b a b' hOk
  rcases Step.modify_eq_ok.mp hOk with rfl
  exact Builder.Emits.place reach b hGiven

theorem placeIf
    {needed : Bool}
    (hGiven : needed = true → l ∈ given)
    (h : Emits reach given own x) :
    Emits reach given (l.kept needed ++ own)
      (if needed = true then Build.place l >>= fun _ =>
        x else x) := by
  cases needed with
  | true => exact (place (hGiven rfl)).bindCons fun _ => h
  | false => exact h

theorem append
    {i : Instruction}
    (hSimple : i.IsSimple)
    (hDest : i.dest? = none)
    (hTargets : ∀ l ∈ i.targets, l ∈ given)
    (hSlots : ∀ slot ∈ i.accessed?, slot ∈ reach.slots) :
    Emits reach given [] (Build.append i) := by
  intro b a b' hOk
  rcases Step.modify_eq_ok.mp hOk with rfl
  exact Builder.Emits.append hSimple hDest hTargets hSlots

theorem jump
    (hGiven : l ∈ given) :
    Emits reach given [] (Build.jump l) := by
  intro b a b' hOk
  rcases Step.modify_eq_ok.mp hOk with rfl
  exact Builder.Emits.jump hGiven

theorem branch
    {condition : Value}
    {onTrue onFalse : Option Label}
    (hTrue : ∀ l ∈ onTrue, l ∈ given)
    (hFalse : ∀ l ∈ onFalse, l ∈ given) :
    Emits reach given []
      (Build.branch condition onTrue onFalse) := by
  intro b a b' hOk
  rcases Step.modify_eq_ok.mp hOk with rfl
  exact Builder.Emits.branch hTrue hFalse

theorem allocate
    {slot : String}
    (t : Ty)
    (hSlot : slot ∈ reach.slots) :
    Emits reach given [] (Build.allocate slot t) := by
  intro b a b' hOk
  rcases Step.modify_eq_ok.mp hOk with rfl
  exact Builder.Emits.allocateSlot t hSlot

theorem define
    {t : Ty}
    {i : Nat → Instruction}
    (hSimple : ∀ n, (i n).IsSimple)
    (hDest : ∀ n, (i n).dest? = some n)
    (hSlots : ∀ n, ∀ slot ∈ (i n).accessed?,
      slot ∈ reach.slots) :
    Emits reach given [] (Build.define t i) := by
  intro b a b' hOk
  cases hOk
  exact Builder.Emits.defined (hSimple _) (hDest _)
    (hSlots _)

/- Behind its body the exit of a loop is forgotten. -/
theorem insideLoop
    {exit : Label}
    {body : Build α}
    (hExit : exit ∈ given)
    (h : Emits reach given own body) :
    Emits reach given own (Build.insideLoop exit body) := by
  intro b a b' hOk
  rcases insideLoop_eq_ok.mp hOk with ⟨b₁, hBody, rfl⟩
  rcases h hBody with ⟨code, hEmits⟩
  exact ⟨code, .inside hExit hEmits⟩

end Emits

end Build

end Bracketry
