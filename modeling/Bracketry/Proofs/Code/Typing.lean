import Bracketry.Proofs.Code.Emission
import Bracketry.Proofs.Scope.Local

/-
  This file says when the code of a function is consistent
  in its types: every register is defined once, and every
  operand stands where its type is written.  Steps of
  writing keep it so.

  The type of a register is told by the instruction that
  defines it, but that of a computed address is not written
  anywhere: it is the type of the part selected.

  Main declarations:
    * `Definition.Consistent`
    * `Builder.Typed`
    * `Build.Types` and `Build.Types.bind`
-/

namespace Bracketry

------------------------------------------------------------
-- Consistency
------------------------------------------------------------

/- Registers with the types of their values. -/
abbrev Typing :=
  List (String × Ty)

namespace Value

/- The register of a temporary. -/
def register (n : Nat) : String :=
  "%t." ++ toString n

/- An operand can be written at a type. -/
inductive HasType (Γ : Typing) : Value → Ty → Prop
| int (n : Int) {t : Ty}
    (hIntegral : t.IsIntegral) :
    HasType Γ (.int n t) t
| float (x : Double) :
    HasType Γ (.float x .float) .float
| bool (x : Bool) :
    HasType Γ (.bool x .bool) .bool
| temporary {n : Nat} {t : Ty}
    (hDefined : (register n, t) ∈ Γ) :
    HasType Γ (.temporary n t) t
| named {name : String} {t : Ty}
    (hDefined : (name, t) ∈ Γ) :
    HasType Γ (.named name t) t
| array {elements : List Value} {n : Nat} {t : Ty}
    (hLength : elements.length = n)
    (hElements : ∀ v ∈ elements, HasType Γ v t) :
    HasType Γ (.array elements (.array n t)) (.array n t)
| zero {t : Ty}
    (hSolid : t ≠ .void) :
    HasType Γ (.zero t) t

namespace HasType

variable {Γ Γ' : Typing} {v : Value} {t : Ty}

/- The type of an operand is the one that it carries. -/
theorem ty_eq
    (hType : v.HasType Γ t) :
    v.ty = t := by
  cases hType <;> rfl

theorem weaken
    (hType : v.HasType Γ t)
    (hSubset : Γ ⊆ Γ') :
    v.HasType Γ' t := by
  induction hType with
  | int n hIntegral => exact .int n hIntegral
  | float x => exact .float x
  | bool x => exact .bool x
  | temporary hDefined =>
      exact .temporary (hSubset hDefined)
  | named hDefined => exact .named (hSubset hDefined)
  | array hLength _ ih => exact .array hLength ih
  | zero hSolid => exact .zero hSolid

end HasType

end Value

/- The part of an array or record that an index selects. -/
def Ty.selected? : Ty → Value → Option Ty
| .array _ t, _ => some t
| .record _ _ members, .int (.ofNat position) _ =>
    members[position]?.map Prod.snd
| _, _ => none

/- The types between which an operation code converts. -/
def Conversion.IsLegal
    (source target : Ty) :
    Conversion → Prop
| .intToFloat => source.IsIntegral ∧ target.IsFloating
| .floatToInt => source.IsFloating ∧ target.IsIntegral
| .widen =>
    source.IsIntegral ∧ target.IsIntegral ∧
      source.apparentSize < target.apparentSize
| .narrow =>
    source.IsIntegral ∧ target.IsIntegral ∧
      target.apparentSize < source.apparentSize

namespace Instruction

open Value (register)

/- The register defined, with the type of its value. -/
def result? : Instruction → Option (String × Ty)
| .allocate slot t => some (slot, .pointer t)
| .load dest t _ => some (register dest, t)
| .arithmetic dest _ t _ _ => some (register dest, t)
| .negate dest t _ => some (register dest, t)
| .compare dest _ _ _ _ => some (register dest, .bool)
| .convert dest _ _ target => some (register dest, target)
| .element dest container _ index _ =>
    (container.selected? index).map fun t =>
      (register dest, .pointer t)
| .call dest t _ _ => dest.map fun n => (register n, t)
| .merge dest _ _ => some (register dest, .bool)
| _ => none

/-
  Operands have the types that are written for them, in a
  function with a given type of result.
-/
def Typed
    (Γ : Typing)
    (result : Ty) :
    Instruction → Prop
| .allocate _ t => t ≠ .void
| .load _ t address =>
    address.HasType Γ (.pointer t) ∧ t ≠ .void
| .store value address =>
    value.HasType Γ value.ty ∧
      address.HasType Γ (.pointer value.ty)
| .arithmetic _ _ t left right =>
    t.IsNumeric ∧ left.HasType Γ t ∧ right.HasType Γ t
| .negate _ t operand => t.IsNumeric ∧ operand.HasType Γ t
| .compare _ op t left right =>
    (t.IsNumeric ∨ t = .bool ∧ op.IsEquality) ∧
      left.HasType Γ t ∧ right.HasType Γ t
| .convert _ how value target =>
    value.HasType Γ value.ty ∧ value.ty ≠ target ∧
      how.IsLegal value.ty target
| .element _ container base index part =>
    base.HasType Γ (.pointer container) ∧
      index.HasType Γ .int ∧
      container.selected? index = some part
| .call dest t _ args =>
    (dest = none ↔ t = .void) ∧ ∀ v ∈ args, v.HasType Γ v.ty
| .merge _ _ _ => True
| .jump _ => True
| .branch condition _ _ => condition.HasType Γ .bool
| .ret none => result = .void
| .ret (some value) =>
    value.HasType Γ result ∧ result ≠ .void
| .verbatim _ => False

theorem Typed.weaken
    {Γ Γ' : Typing}
    {result : Ty}
    {i : Instruction}
    (hTyped : i.Typed Γ result)
    (hSubset : Γ ⊆ Γ') :
    i.Typed Γ' result := by
  cases i with
  | allocate slot t => exact hTyped
  | load dest t address =>
      exact ⟨hTyped.1.weaken hSubset, hTyped.2⟩
  | store value address =>
      exact ⟨hTyped.1.weaken hSubset,
        hTyped.2.weaken hSubset⟩
  | arithmetic dest op t left right =>
      exact ⟨hTyped.1, hTyped.2.1.weaken hSubset,
        hTyped.2.2.weaken hSubset⟩
  | negate dest t operand =>
      exact ⟨hTyped.1, hTyped.2.weaken hSubset⟩
  | compare dest op t left right =>
      exact ⟨hTyped.1, hTyped.2.1.weaken hSubset,
        hTyped.2.2.weaken hSubset⟩
  | convert dest how value target =>
      exact ⟨hTyped.1.weaken hSubset, hTyped.2⟩
  | element dest container base index part =>
      exact ⟨hTyped.1.weaken hSubset,
        hTyped.2.1.weaken hSubset, hTyped.2.2⟩
  | call dest t callee args =>
      exact ⟨hTyped.1,
        fun v hMem => (hTyped.2 v hMem).weaken hSubset⟩
  | merge dest onTrue onFalse => trivial
  | jump target => trivial
  | branch condition onTrue onFalse =>
      exact Value.HasType.weaken hTyped hSubset
  | ret value =>
      cases value with
      | none => exact hTyped
      | some value =>
          exact ⟨hTyped.1.weaken hSubset, hTyped.2⟩
  | verbatim text => exact hTyped

end Instruction

namespace Line

/- The register that a line defines. -/
def result? : Line → Option (String × Ty)
| .label _ => none
| .instruction i => i.result?

/- The registers that lines define, in order. -/
def results (lines : List Line) : Typing :=
  lines.filterMap result?

@[simp] theorem results_append
    (first second : List Line) :
    results (first ++ second) = results first ++
      results second :=
  List.filterMap_append

end Line

/- The registers in which arguments arrive. -/
def Prototype.arriving (p : Prototype) : Typing :=
  p.params.map fun x => (x.incoming.text, x.ty)

namespace Definition

/- All registers of a function. -/
def registers (d : Definition) : Typing :=
  d.signature.arriving ++ Line.results d.lines

/- Each register is defined once, and used at its type. -/
structure Consistent (d : Definition) : Prop where
  unique : (d.registers.map Prod.fst).Nodup
  typed :
    ∀ i, .instruction i ∈ d.lines →
      i.Typed d.registers d.signature.returnType

end Definition

------------------------------------------------------------
-- Settings
------------------------------------------------------------

/-
  What the code of a function is written for: its variables,
  the registers in which arguments arrive, and the type of
  its result.
-/
structure Setting where
  vars : List Identifier
  arriving : Typing
  result : Ty

open Value (register)

theorem Value.register_inj
    {m n : Nat}
    (hEq : register m = register n) :
    m = n :=
  Identifier.number_inj ((String.append_right_inj _).mp hEq)

/- No two registers of a function have the same name. -/
structure Setting.Distinct (s : Setting) : Prop where
  slots :
    ∀ x ∈ s.vars, ∀ y ∈ s.vars, x.storage = y.storage →
      x = y
  solid : ∀ x ∈ s.vars, x.ty ≠ .void
  temporaries : ∀ x ∈ s.vars, ∀ n, x.storage ≠ register n
  arguments : (s.arriving.map Prod.fst).Nodup
  arrived :
    ∀ r ∈ s.arriving,
      (∀ x ∈ s.vars, r.1 ≠ x.storage) ∧
        ∀ n, r.1 ≠ register n

namespace Builder

/- The registers that are known. -/
def registers
    (b : Builder)
    (s : Setting) : Typing :=
  s.arriving ++ Line.results b.lines.toList

/- A label defines no register. -/
theorem registers_reopen
    (b : Builder)
    (s : Setting) :
    b.reopen.registers s = b.registers s := by
  unfold registers
  rw [Emits.reopen_eq]
  split
  · simp [Line.results, Line.result?]
  · rfl

/- All that is written so far is consistent. -/
structure Typed
    (s : Setting)
    (b : Builder) : Prop where
  distinct : s.Distinct
  lines :
    ∀ i, .instruction i ∈ b.lines.toList →
      i.Typed (b.registers s) s.result
  slots :
    ∀ x ∈ s.vars, x.storage ∈ b.allocated →
      (x.storage, .pointer x.ty) ∈ b.registers s
  known : ∀ slot ∈ b.allocated, ∃ x ∈ s.vars,
    x.storage = slot
  names :
    ∀ r ∈ Line.results b.lines.toList,
      r.1 ∈ b.allocated ∨ ∃ n, n < b.nextTemporary ∧
        r.1 = register n
  unique : ((b.registers s).map Prod.fst).Nodup

/- What is written stays consistent and known. -/
structure Grows
    (s : Setting)
    (b b' : Builder) : Prop where
  typed : b'.Typed s
  registers : b.registers s ⊆ b'.registers s

theorem Grows.trans
    {s : Setting}
    {b b₁ b' : Builder}
    (h₁ : b.Grows s b₁)
    (h₂ : b₁.Grows s b') :
    b.Grows s b' :=
  ⟨h₂.typed, fun _ hMem => h₂.registers (h₁.registers hMem)⟩

namespace Typed

variable {s : Setting} {b b' : Builder}

theorem grows
    (hTyped : b.Typed s) :
    b.Grows s b :=
  ⟨hTyped, fun _ => id⟩

/- Where nothing is written, only arguments are known. -/
theorem start
    (hDistinct : s.Distinct)
    (hLines : b.lines = #[])
    (hAllocated : b.allocated = []) :
    b.Typed s ∧ b.registers s = s.arriving := by
  have hRegisters : b.registers s = s.arriving := by
    simp [registers, hLines, Line.results]
  refine ⟨⟨hDistinct, ?_, ?_, ?_, ?_, ?_⟩, hRegisters⟩
  · simp [hLines]
  · simp [hAllocated]
  · simp [hAllocated]
  · simp [hLines, Line.results]
  · rw [hRegisters]
    exact hDistinct.arguments

/- Lines that define no register. -/
theorem silent
    (hTyped : b.Typed s)
    {code : List Line}
    (hLines : b'.lines.toList = b.lines.toList ++ code)
    (hAllocated : b'.allocated = b.allocated)
    (hNext : b.nextTemporary ≤ b'.nextTemporary)
    (hSilent : Line.results code = [])
    (hCode :
      ∀ i, .instruction i ∈ code →
        i.Typed (b.registers s) s.result) :
    b.Grows s b' := by
  have hRegisters : b'.registers s = b.registers s := by
    rw [registers, hLines, Line.results_append, hSilent,
      List.append_nil, registers]
  refine ⟨⟨hTyped.distinct, ?_, ?_, ?_, ?_, ?_⟩, ?_⟩
  · rw [hRegisters, hLines]
    intro i hMem
    rcases List.mem_append.mp hMem with hOld | hNew
    · exact hTyped.lines i hOld
    · exact hCode i hNew
  · rw [hRegisters, hAllocated]
    exact hTyped.slots
  · rw [hAllocated]
    exact hTyped.known
  · rw [hLines, Line.results_append, hSilent,
      List.append_nil, hAllocated]
    intro r hMem
    rcases hTyped.names r hMem with hSlot | ⟨n, hLt, hEq⟩
    · exact .inl hSlot
    · exact .inr ⟨n, Nat.lt_of_lt_of_le hLt hNext, hEq⟩
  · rw [hRegisters]
    exact hTyped.unique
  · rw [hRegisters]
    exact fun _ => id

variable {i : Instruction}

/- A line that defines a register with a new name. -/
theorem defining
    (hTyped : b.Typed s)
    {name : String}
    {t : Ty}
    (hLines : b'.lines.toList = b.lines.toList ++
      [.instruction i])
    (hResult : i.result? = some (name, t))
    (hInstruction : i.Typed (b.registers s) s.result)
    (hNew : ∀ r ∈ b.registers s, r.1 ≠ name)
    (hNext : b.nextTemporary ≤ b'.nextTemporary)
    (hName :
      name ∈ b'.allocated ∨
        ∃ n, n < b'.nextTemporary ∧ name = register n)
    (hKept : b.allocated ⊆ b'.allocated)
    (hKnown : ∀ slot ∈ b'.allocated, ∃ x ∈ s.vars,
      x.storage = slot)
    (hSlots :
      ∀ x ∈ s.vars, x.storage ∈ b'.allocated →
        x.storage ∈ b.allocated ∨
          (x.storage, Ty.pointer x.ty) = (name, t)) :
    b.Grows s b' ∧ (name, t) ∈ b'.registers s := by
  have hResults :
      Line.results b'.lines.toList =
        Line.results b.lines.toList ++ [(name, t)] := by
    rw [hLines, Line.results_append]
    simp [Line.results, Line.result?, hResult]
  have hAdded : b'.registers s = b.registers s ++
      [(name, t)] := by
    rw [registers, hResults, ← List.append_assoc, registers]
  have hSubset : b.registers s ⊆ b'.registers s := by
    rw [hAdded]
    exact List.subset_append_left _ _
  have hLast : (name, t) ∈ b'.registers s := by
    simp [hAdded]
  refine ⟨⟨⟨hTyped.distinct, ?_, ?_, hKnown, ?_, ?_⟩,
    hSubset⟩, hLast⟩
  · rw [hLines]
    intro j hMem
    rcases List.mem_append.mp hMem with hOld | hHere
    · exact (hTyped.lines j hOld).weaken hSubset
    · cases List.mem_singleton.mp hHere
      exact hInstruction.weaken hSubset
  · intro x hVar hSlot
    rcases hSlots x hVar hSlot with hOld | hEq
    · exact hSubset (hTyped.slots x hVar hOld)
    · rw [hEq]
      exact hLast
  · rw [hResults]
    intro r hMem
    rcases List.mem_append.mp hMem with hOld | hHere
    · rcases hTyped.names r hOld with hSlot | ⟨n, hLt, hEq⟩
      · exact .inl (hKept hSlot)
      · exact .inr ⟨n, Nat.lt_of_lt_of_le hLt hNext, hEq⟩
    · rw [List.mem_singleton.mp hHere]
      exact hName
  · rw [hAdded, List.map_append, List.map_singleton,
      List.nodup_append]
    refine ⟨hTyped.unique, by simp, ?_⟩
    intro first hFirst second hSecond
    rcases List.mem_map.mp hFirst with ⟨r, hMem, rfl⟩
    rw [List.mem_singleton.mp hSecond]
    exact hNew r hMem

------------------------------------------------------------
-- Blocks
------------------------------------------------------------

theorem reserve
    (hTyped : b.Typed s) :
    b.Grows s b.reserve.2 :=
  hTyped.silent (List.append_nil _).symm rfl (Nat.le_refl _)
    rfl (by simp)

theorem number
    (hTyped : b.Typed s) :
    b.Grows s b.number.2 :=
  hTyped.silent (List.append_nil _).symm rfl (Nat.le_succ _)
    rfl (by simp)

/- The exits of the loops around do not matter. -/
theorem withExits
    (hTyped : b.Typed s)
    (exits : List Label) :
    b.Grows s { b with loopExits := exits } := by
  have hLines :
      { b with loopExits := exits }.lines.toList =
        b.lines.toList ++ [] :=
    (List.append_nil _).symm
  exact hTyped.silent hLines rfl (Nat.le_refl _) rfl
    (by simp)

theorem label
    (hTyped : b.Typed s)
    (l : Label)
    (between : Bool) :
    b.Grows s { b.write (.label l) with
      between := between } := by
  have hLines :
      (b.write (.label l)).lines.toList =
        b.lines.toList ++ [.label l] := by
    simp [write]
  exact hTyped.silent hLines rfl (Nat.le_refl _) rfl
    (by simp)

/- An instruction that defines no register. -/
theorem instruction
    (hTyped : b.Typed s)
    (hSilent : i.result? = none)
    (hInstruction : i.Typed (b.registers s) s.result)
    (between : Bool) :
    b.Grows s
      { b.write (.instruction i) with
        between := between } := by
  have hLines :
      (b.write (.instruction i)).lines.toList =
        b.lines.toList ++ [.instruction i] := by
    simp [write]
  refine hTyped.silent hLines rfl (Nat.le_refl _) ?_ ?_
  · simp [Line.results, Line.result?, hSilent]
  · intro j hMem
    cases List.mem_singleton.mp hMem
    exact hInstruction

theorem place
    (hTyped : b.Typed s)
    (l : Label) :
    b.Grows s (b.place l) := by
  unfold Builder.place
  cases b.between with
  | true =>
      simp only [if_true]
      exact hTyped.label l false
  | false =>
      have hJump :=
        hTyped.instruction (i := .jump l) rfl trivial false
      exact hJump.trans (hJump.typed.label l false)

theorem reopen
    (hTyped : b.Typed s) :
    b.Grows s b.reopen := by
  unfold Builder.reopen
  cases b.between with
  | true =>
      simp only [if_true]
      exact hTyped.reserve.trans
        (hTyped.reserve.typed.place b.reserve.1)
  | false => exact hTyped.grows

theorem append
    (hTyped : b.Typed s)
    (hSilent : i.result? = none)
    (hInstruction : i.Typed (b.registers s) s.result) :
    b.Grows s (b.append i) := by
  have hOpen := hTyped.reopen
  exact hOpen.trans (hOpen.typed.instruction hSilent
    (hInstruction.weaken hOpen.registers) i.endsBlock)

theorem jump
    (hTyped : b.Typed s)
    (l : Label) :
    b.Grows s (b.jump l) := by
  unfold Builder.jump
  cases b.between with
  | true => exact hTyped.grows
  | false => exact hTyped.append rfl trivial

/- A branch that goes on at a fresh label behind it. -/
theorem appendPlace
    (hTyped : b.Typed s)
    (hSilent : i.result? = none)
    (hInstruction : i.Typed (b.registers s) s.result) :
    b.Grows s
      ((b.reserve.2.append i).place b.reserve.1) := by
  have hFirst := hTyped.reserve
  have hSecond := hFirst.typed.append hSilent
    (hInstruction.weaken hFirst.registers)
  exact (hFirst.trans hSecond).trans
    (hSecond.typed.place b.reserve.1)

theorem branch
    (hTyped : b.Typed s)
    {condition : Value}
    (hCondition : condition.HasType (b.registers s) .bool)
    (onTrue onFalse : Option Label) :
    b.Grows s (b.branch condition onTrue onFalse) := by
  cases onTrue with
  | some t =>
      cases onFalse with
      | some f =>
          exact hTyped.append (i := .branch condition t f)
            rfl hCondition
      | none =>
          exact hTyped.appendPlace
            (i := .branch condition t _) rfl hCondition
  | none =>
      cases onFalse with
      | some f =>
          exact hTyped.appendPlace
            (i := .branch condition _ f) rfl hCondition
      | none => exact hTyped.grows

/- A temporary that was not handed out is not known. -/
theorem ne_register
    (hTyped : b.Typed s) :
    ∀ r ∈ b.registers s, r.1 ≠
      register b.nextTemporary := by
  intro r hMem
  rcases List.mem_append.mp hMem with hArrived | hDefined
  · exact (hTyped.distinct.arrived r hArrived).2 _
  · rcases hTyped.names r hDefined with
      hSlot | ⟨n, hLt, hEq⟩
    · rcases hTyped.known r.1 hSlot with ⟨x, hVar, hStorage⟩
      rw [← hStorage]
      exact hTyped.distinct.temporaries x hVar _
    · intro hSame
      have hNumber :=
        Value.register_inj (hEq.symm.trans hSame)
      omega

/- A slot that was not allocated is not known. -/
theorem ne_slot
    (hTyped : b.Typed s)
    {x : Identifier}
    (hVar : x ∈ s.vars)
    (hNew : x.storage ∉ b.allocated) :
    ∀ r ∈ b.registers s, r.1 ≠ x.storage := by
  intro r hMem
  rcases List.mem_append.mp hMem with hArrived | hDefined
  · exact (hTyped.distinct.arrived r hArrived).1 x hVar
  · rcases hTyped.names r hDefined with hSlot | ⟨n, -, hEq⟩
    · rintro hSame
      exact hNew (hSame ▸ hSlot)
    · rw [hEq]
      exact (hTyped.distinct.temporaries x hVar n).symm

theorem define
    (hTyped : b.Typed s)
    {t : Ty}
    (hResult :
      i.result? = some (register b.nextTemporary, t))
    (hInstruction : i.Typed (b.registers s) s.result) :
    b.Grows s (b.number.2.append i) ∧
      (register b.nextTemporary, t) ∈
        (b.number.2.append i).registers s := by
  have hOpen :=
    hTyped.number.trans hTyped.number.typed.reopen
  have hSame : b.number.2.reopen.registers s =
    b.registers s :=
    registers_reopen b.number.2 s
  have hNext : b.number.2.reopen.nextTemporary =
    b.nextTemporary + 1 :=
    Emits.nextTemporary_reopen b.number.2
  have hLines :
      (b.number.2.append i).lines.toList =
        b.number.2.reopen.lines.toList ++
          [.instruction i] := by
    simp [Builder.append, write]
  rcases hOpen.typed.defining hLines hResult
    (hInstruction.weaken hOpen.registers)
    (hSame ▸ hTyped.ne_register) (Nat.le_refl _)
    (.inr
      ⟨b.nextTemporary, hNext ▸ Nat.lt_succ_self _, rfl⟩)
    (fun _ => id) hOpen.typed.known (fun _ _ => .inl) with
    ⟨hGrows, hLast⟩
  exact ⟨hOpen.trans hGrows, hLast⟩

/- The slot of a variable is known once it is allocated. -/
theorem allocate
    (hTyped : b.Typed s)
    {x : Identifier}
    (hVar : x ∈ s.vars) :
    b.Grows s (b.allocate x.storage x.ty) ∧
      (x.storage, .pointer x.ty) ∈
        (b.allocate x.storage x.ty).registers s := by
  by_cases hOld : x.storage ∈ b.allocated
  · unfold Builder.allocate
    simp only [hOld, if_true]
    exact ⟨hTyped.grows, hTyped.slots x hVar hOld⟩
  · have hOpen := hTyped.reopen
    have hSame := registers_reopen b s
    have hState := Emits.allocate_of_new x.ty hOld
    have hLines :
        (b.allocate x.storage x.ty).lines.toList =
          b.reopen.lines.toList ++
            [.instruction (.allocate x.storage x.ty)] := by
      simp [hState, write]
    have hAllocated :
        (b.allocate x.storage x.ty).allocated =
          x.storage :: b.reopen.allocated := by
      rw [hState]
    have hNext :
        b.reopen.nextTemporary ≤
          (b.allocate x.storage x.ty).nextTemporary := by
      rw [hState]
      exact Nat.le_refl _
    have hSlots :
        ∀ y ∈ s.vars,
          y.storage ∈
            (b.allocate x.storage x.ty).allocated →
            y.storage ∈ b.reopen.allocated ∨
              (y.storage, Ty.pointer y.ty) =
                (x.storage, .pointer x.ty) := by
      intro y hOther hSlot
      rw [hAllocated] at hSlot
      rcases List.mem_cons.mp hSlot with hEq | hBefore
      · rw [hTyped.distinct.slots y hOther x hVar hEq]
        exact .inr rfl
      · exact .inl hBefore
    have hKnown :
        ∀ slot ∈ (b.allocate x.storage x.ty).allocated,
          ∃ y ∈ s.vars, y.storage = slot := by
      rw [hAllocated]
      exact List.forall_mem_cons.mpr
        ⟨⟨x, hVar, rfl⟩, hOpen.typed.known⟩
    rcases hOpen.typed.defining hLines rfl
      (hTyped.distinct.solid x hVar)
      (hSame ▸ hTyped.ne_slot hVar hOld) hNext
      (.inl (hAllocated ▸ List.mem_cons_self))
      (hAllocated ▸ List.subset_cons_self _ _) hKnown
        hSlots with
      ⟨hGrows, hLast⟩
    exact ⟨hOpen.trans hGrows, hLast⟩

end Typed

end Builder

namespace Build

variable {α β : Type}

/-
  A step that succeeds keeps code consistent.  It may use
  the registers `Γ`, and its result is told with those that
  are known behind it.
-/
def Types
    (s : Setting)
    (Γ : Typing)
    (Q : α → Typing → Prop)
    (x : Build α) : Prop :=
  ∀ ⦃b : Builder⦄ ⦃a : α⦄ ⦃b' : Builder⦄,
    b.Typed s → Γ ⊆ b.registers s → x b = .ok a b' →
      b.Grows s b' ∧ Q a (b'.registers s)

/- A step that gives an operand of a type. -/
abbrev Gives
    (s : Setting)
    (Γ : Typing)
    (t : Ty)
    (x : Build Value) : Prop :=
  Types s Γ (fun v Γ' => v.HasType Γ' t) x

/- A step whose result does not matter. -/
abbrev Keeps
    (s : Setting)
    (Γ : Typing)
    (x : Build α) : Prop :=
  Types s Γ (fun _ _ => True) x

namespace Types

variable {s : Setting} {Γ Γ' : Typing}
variable {Q Q' : α → Typing → Prop} {R : β → Typing → Prop}
variable {x : Build α}

theorem imp
    (hTypes : Types s Γ Q x)
    (hImp : ∀ a Γ', Q a Γ' → Q' a Γ') :
    Types s Γ Q' x := by
  intro b a b' hTyped hSubset hOk
  rcases hTypes hTyped hSubset hOk with ⟨hGrows, hResult⟩
  exact ⟨hGrows, hImp a _ hResult⟩

theorem pure
    {a : α}
    (hResult : ∀ Γ', Γ ⊆ Γ' → Q a Γ') :
    Types s Γ Q (pure a : Build α) := by
  intro b a' b' hTyped hSubset hOk
  rcases Step.pure_eq_ok.mp hOk with ⟨rfl, rfl⟩
  exact ⟨hTyped.grows, hResult _ hSubset⟩

theorem throw
    (fault : Fault) :
    Types s Γ Q (throw fault : Build α) := by
  intro b a b' _ _ hOk
  cases hOk

/- What follows knows at least the same registers. -/
theorem bind
    {f : α → Build β}
    (hFirst : Types s Γ Q x)
    (hSecond :
      ∀ a Γ', Γ ⊆ Γ' → Q a Γ' → Types s Γ' R (f a)) :
    Types s Γ R (x >>= f) := by
  intro b a b' hTyped hSubset hOk
  rcases Step.bind_eq_ok.mp hOk with ⟨a₁, b₁, hX, hF⟩
  rcases hFirst hTyped hSubset hX with ⟨hGrows, hResult⟩
  have hKnown : Γ ⊆ b₁.registers s :=
    fun _ hMem => hGrows.registers (hSubset hMem)
  rcases hSecond a₁ _ hKnown hResult hGrows.typed
    (fun _ => id) hF with
    ⟨hGrows', hResult'⟩
  exact ⟨hGrows.trans hGrows', hResult'⟩

theorem getBind
    {f : Builder → Build α}
    (h : ∀ b, Types s Γ Q (f b)) :
    Types s Γ Q (get >>= f) :=
  fun b _ _ hTyped hSubset hOk => h b hTyped hSubset hOk

theorem modify
    {f : Builder → Builder}
    (h :
      ∀ b : Builder, b.Typed s → Γ ⊆ b.registers s →
        b.Grows s (f b)) :
    Keeps s Γ (modify f : Build PUnit) := by
  intro b a b' hTyped hSubset hOk
  rcases Step.modify_eq_ok.mp hOk with rfl
  exact ⟨h b hTyped hSubset, trivial⟩

theorem label :
    Keeps s Γ Build.label := by
  intro b l b' hTyped _ hOk
  rcases label_eq_ok.mp hOk with ⟨rfl, rfl⟩
  exact ⟨hTyped.reserve, trivial⟩

theorem place
    (l : Label) :
    Keeps s Γ (Build.place l) :=
  modify fun _ hTyped _ => hTyped.place l

theorem jump
    (l : Label) :
    Keeps s Γ (Build.jump l) :=
  modify fun _ hTyped _ => hTyped.jump l

theorem append
    {i : Instruction}
    (hSilent : i.result? = none)
    (hInstruction : i.Typed Γ s.result) :
    Keeps s Γ (Build.append i) :=
  modify fun _ hTyped hSubset =>
    hTyped.append hSilent (hInstruction.weaken hSubset)

theorem branch
    {condition : Value}
    (hCondition : condition.HasType Γ .bool)
    (onTrue onFalse : Option Label) :
    Keeps s Γ (Build.branch condition onTrue onFalse) :=
  modify fun _ hTyped hSubset =>
    hTyped.branch (hCondition.weaken hSubset) onTrue onFalse

theorem allocate
    {x : Identifier}
    (hVar : x ∈ s.vars) :
    Types s Γ (fun _ Γ' => (x.storage, .pointer x.ty) ∈ Γ')
      (Build.allocate x.storage x.ty) := by
  intro b a b' hTyped _ hOk
  rcases Step.modify_eq_ok.mp hOk with rfl
  exact hTyped.allocate hVar

theorem define
    {t : Ty}
    {i : Nat → Instruction}
    (hResult : ∀ n, (i n).result? = some (register n, t))
    (hInstruction : ∀ n, (i n).Typed Γ s.result) :
    Gives s Γ t (Build.define t i) := by
  intro b v b' hTyped hSubset hOk
  cases hOk
  rcases hTyped.define (hResult b.nextTemporary)
    ((hInstruction b.nextTemporary).weaken hSubset) with
      ⟨hGrows, hLast⟩
  exact ⟨hGrows, .temporary hLast⟩

theorem insideLoop
    {exit : Label}
    {body : Build α}
    (h : Types s Γ Q body) :
    Types s Γ Q (Build.insideLoop exit body) := by
  intro b a b' hTyped hSubset hOk
  rcases insideLoop_eq_ok.mp hOk with ⟨b₁, hBody, rfl⟩
  have hInside := hTyped.withExits (exit :: b.loopExits)
  rcases h hInside.typed hSubset hBody with
    ⟨hGrows, hResult⟩
  exact ⟨hInside.trans
    (hGrows.trans
      (hGrows.typed.withExits b₁.loopExits.tail)), hResult⟩

end Types

end Build

end Bracketry
