import Bracketry.Proofs.Code.Emission

/-
  This file says which elementary steps writing is made of,
  whether it succeeds or ends in a fault.

  Labels and numbers are handed out, blocks are started and
  instructions are appended; slots and the exits of loops
  are noted.  What each of these keeps, all writing keeps.
-/

namespace Bracketry

/- The name of a slot starts with a mark. -/
def Instruction.Marked : Instruction → Prop
| .allocate slot _ =>
    ∃ rest, slot = "%" ++ rest ∨ slot = "@" ++ rest
| _ => True

theorem Identifier.storage_marked
    (x : Identifier) :
    ∃ rest, x.storage = "%" ++ rest ∨
      x.storage = "@" ++ rest := by
  unfold storage
  split
  · exact ⟨x.name ++ ".arg", .inl String.append_assoc⟩
  · exact ⟨x.name, .inr rfl⟩
  · rename_i function scope _
    refine ⟨x.name ++ "." ++ function ++ "." ++
      toString scope, .inl ?_⟩
    simp only [String.append_assoc]

namespace Builder

theorem lines_place
    (b : Builder)
    (l : Label) :
    ∃ code, (b.place l).lines.toList = b.lines.toList ++
      code ∧ ∀ i, .instruction i ∈ code → i = .jump l := by
  cases hBetween : b.between with
  | true =>
      exact ⟨[.label l],
        by simp [place, write, hBetween], by simp⟩
  | false =>
      exact ⟨[.instruction (.jump l), .label l],
        by simp [place, write, hBetween], by simp⟩

theorem lines_append
    (b : Builder)
    (i : Instruction) :
    ∃ code, (b.append i).lines.toList = b.lines.toList ++
      code ∧ ∀ other, .instruction other ∈ code →
        other = i ∨ ∃ l, other = .jump l := by
  cases hBetween : b.between with
  | true =>
      rcases lines_place b.reserve.2 b.reserve.1 with
        ⟨code, hLines, hJump⟩
      refine ⟨code ++ [.instruction i], ?_, ?_⟩
      · simp only [append, reopen, hBetween, if_true, write,
          Array.toList_push, hLines, List.append_assoc]
        rfl
      · intro other hMem
        rcases List.mem_append.mp hMem with hFirst | hLast
        · exact .inr ⟨_, hJump other hFirst⟩
        · exact .inl (by simpa using hLast)
  | false =>
      exact ⟨[.instruction i],
        by simp [append, reopen, write, hBetween],
        fun other hMem => .inl (by simpa using hMem)⟩

/-
  A relation leads on from state to state, and holds across
  each elementary step that appends what is allowed.
-/
structure Carries
    (allowed : Instruction → Prop)
    (R : Builder → Builder → Prop) : Prop where
  refl : ∀ b, R b b
  trans : ∀ {b b₁ b₂}, R b b₁ → R b₁ b₂ → R b b₂
  reserve : ∀ b, R b b.reserve.2
  place : ∀ b l, R b (b.place l)
  jump : ∀ b l, R b (b.jump l)
  append : ∀ {b i}, allowed i → i.dest? = none →
    R b (b.append i)
  define : ∀ {b i}, allowed i →
    i.dest? = some b.nextTemporary →
    R b (b.number.2.append i)
  note : ∀ b slots, R b { b with allocated := slots }
  exits : ∀ b exits, R b { b with loopExits := exits }

namespace Carries

variable {α β : Type} {allowed : Instruction → Prop}
variable {R : Builder → Builder → Prop}
variable (hR : Carries allowed R) {b : Builder}

include hR

theorem branch
    {condition : Value}
    {onTrue onFalse : Option Label}
    (hAllowed : ∀ t f, allowed (.branch condition t f)) :
    R b (b.branch condition onTrue onFalse) := by
  have hThrough : ∀ t f,
      R b
        ((b.reserve.2.append (.branch condition t f)).place
        b.reserve.1) :=
    fun t f => hR.trans (hR.reserve b)
      (hR.trans (hR.append (hAllowed t f) rfl)
        (hR.place _ _))
  cases onTrue with
  | some t =>
      cases onFalse with
      | some f => exact hR.append (hAllowed t f) rfl
      | none => exact hThrough t b.reserve.1
  | none =>
      cases onFalse with
      | some f => exact hThrough b.reserve.1 f
      | none => exact hR.refl b

theorem allocate
    {slot : String}
    {t : Ty}
    (hAllowed : allowed (.allocate slot t)) :
    R b (b.allocate slot t) := by
  unfold Builder.allocate
  split
  · exact hR.refl b
  · exact hR.trans (hR.note b _) (hR.append hAllowed rfl)

/- A fault in the first step leaves out the second. -/
theorem bind
    {x : Build α}
    {f : α → Build β}
    (hFirst : ∀ b, R b (x.after b))
    (hSecond :
      ∀ a, (∃ b b', x b = .ok a b') →
        ∀ b, R b ((f a).after b)) :
    ∀ b, R b ((x >>= f).after b) := by
  intro b
  have h₁ := hFirst b
  unfold Build.after at h₁ ⊢
  cases hRun : x b with
  | ok a b₁ =>
      rw [hRun] at h₁
      rw [Step.bind_of_ok hRun]
      exact hR.trans h₁ (hSecond a ⟨b, b₁, hRun⟩ b₁)
  | error fault b₁ =>
      rw [hRun] at h₁
      rw [Step.bind_of_error hRun]
      exact h₁

theorem insideLoop
    {exit : Label}
    {body : Build α}
    (hBody : ∀ b, R b (body.after b)) :
    ∀ b, R b ((Build.insideLoop exit body).after b) := by
  intro b
  have hInside :=
    hR.trans (hR.exits b (exit :: b.loopExits)) (hBody _)
  unfold Build.after at hInside
  unfold Build.after Build.insideLoop
  cases hRun :
    body { b with loopExits := exit :: b.loopExits } with
  | ok a b' =>
      rw [hRun] at hInside
      exact hR.trans hInside (hR.exits b' _)
  | error fault b' =>
      rw [hRun] at hInside
      exact hR.trans hInside (hR.exits b' _)

end Carries

/-
  The second state comes from the first by elementary steps,
  where all instructions but jumps are of an allowed kind.
-/
inductive Steps
    (allowed : Instruction → Prop) :
    Builder → Builder → Prop
| refl {b : Builder} :
    Steps allowed b b
| trans {b b₁ b₂ : Builder} :
    Steps allowed b b₁ → Steps allowed b₁ b₂ →
      Steps allowed b b₂
| reserve {b : Builder} :
    Steps allowed b b.reserve.2
| number {b : Builder} :
    Steps allowed b b.number.2
| place {b : Builder} (l : Label) :
    Steps allowed b (b.place l)
| jump {b : Builder} (l : Label) :
    Steps allowed b (b.jump l)
| append {b : Builder} {i : Instruction} :
    allowed i → Steps allowed b (b.append i)
| note {b : Builder} (slots : List String) :
    Steps allowed b { b with allocated := slots }
| exits {b : Builder} (exits : List Label) :
    Steps allowed b { b with loopExits := exits }

namespace Steps

variable {allowed : Instruction → Prop} {b b' : Builder}

theorem reopen :
    Steps allowed b b.reopen := by
  unfold Builder.reopen
  cases b.between with
  | true => exact Steps.reserve.trans (.place _)
  | false => exact .refl

theorem carries :
    Carries allowed (Steps allowed) where
  refl := fun _ => .refl
  trans := .trans
  reserve := fun _ => .reserve
  place := fun _ => .place
  jump := fun _ => .jump
  append := fun hAllowed _ => .append hAllowed
  define := fun hAllowed _ =>
      Steps.number.trans (.append hAllowed)
  note := fun _ => .note
  exits := fun _ => .exits

/- All lines are labels, jumps and allowed ones. -/
theorem lines_eq
    (h : Steps allowed b b') :
    ∃ code, b'.lines.toList = b.lines.toList ++ code ∧
      ∀ i, .instruction i ∈ code → allowed i ∨
        ∃ l, i = .jump l := by
  induction h with
  | trans _ _ ih₁ ih₂ =>
      rcases ih₁ with ⟨code₁, hLines₁, hIn₁⟩
      rcases ih₂ with ⟨code₂, hLines₂, hIn₂⟩
      refine ⟨code₁ ++ code₂, ?_, ?_⟩
      · rw [hLines₂, hLines₁, List.append_assoc]
      · intro i hMem
        exact (List.mem_append.mp hMem).elim
          (hIn₁ i) (hIn₂ i)
  | @place b l =>
      rcases b.lines_place l with ⟨code, hLines, hJump⟩
      exact ⟨code, hLines,
        fun i hMem => .inr ⟨l, hJump i hMem⟩⟩
  | @jump b l =>
      unfold Builder.jump
      cases b.between with
      | true => exact ⟨[], by simp⟩
      | false =>
          rcases b.lines_append (.jump l) with
            ⟨code, hLines, hIn⟩
          refine ⟨code, hLines, fun i hMem => .inr ?_⟩
          exact (hIn i hMem).elim (fun hEq => ⟨l, hEq⟩) id
  | @append b i hAllowed =>
      rcases b.lines_append i with ⟨code, hLines, hIn⟩
      refine ⟨code, hLines, fun other hMem => ?_⟩
      refine (hIn other hMem).imp_left ?_
      rintro rfl
      exact hAllowed
  | _ => exact ⟨[], (List.append_nil _).symm, by simp⟩

end Steps

end Builder

namespace Build

variable {α β : Type} {allowed : Instruction → Prop}

/- A step of writing is made of elementary steps. -/
def Steps
    (allowed : Instruction → Prop)
    (x : Build α) : Prop :=
  ∀ b : Builder, b.Steps allowed (x.after b)

namespace Steps

theorem pure
    (a : α) :
    Steps allowed (pure a : Build α) :=
  fun _ => .refl

variable {x : Build α}

theorem bind
    {f : α → Build β}
    (hFirst : Steps allowed x)
    (hSecond : ∀ a, Steps allowed (f a)) :
    Steps allowed (x >>= f) :=
  Builder.Steps.carries.bind hFirst fun a _ => hSecond a

theorem label :
    Steps allowed Build.label :=
  fun _ => .reserve

theorem number :
    Steps allowed Build.number :=
  fun _ => .number

theorem place
    (l : Label) :
    Steps allowed (Build.place l) :=
  fun _ => .place l

theorem append
    {i : Instruction}
    (hAllowed : allowed i) :
    Steps allowed (Build.append i) :=
  fun _ => .append hAllowed

theorem jump
    (l : Label) :
    Steps allowed (Build.jump l) :=
  fun _ => .jump l

theorem branch
    {condition : Value}
    {onTrue onFalse : Option Label}
    (hAllowed : ∀ t f, allowed (.branch condition t f)) :
    Steps allowed (Build.branch condition onTrue onFalse) :=
  fun _ => Builder.Steps.carries.branch hAllowed

theorem allocate
    {slot : String}
    {t : Ty}
    (hAllowed : allowed (.allocate slot t)) :
    Steps allowed (Build.allocate slot t) :=
  fun _ => Builder.Steps.carries.allocate hAllowed

theorem define
    {t : Ty}
    {i : Nat → Instruction}
    (hAllowed : ∀ n, allowed (i n)) :
    Steps allowed (Build.define t i) := by
  apply number.bind
  intro dest
  apply (append (hAllowed dest)).bind
  intro _
  exact .pure _

end Steps

end Build

end Bracketry
