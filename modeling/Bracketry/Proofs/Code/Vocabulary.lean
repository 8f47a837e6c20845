import Bracketry.Proofs.Code.Liveness
import Bracketry.Text

/-
  This file says what instructions may speak of in a program
  with given functions and records.

  The types that are written mention records of the program
  only, names of registers have no characters that mean
  something else in the text, and a call agrees with the
  header of a function in its types.

  Main declarations:
    * `Text.Plain`
    * `Instruction.Proper`
    * `Build.Says`
-/

namespace Bracketry

namespace Text

/- None of some characters is in a text. -/
def Lacks
    (cs : List Char)
    (text : String) : Prop :=
  ∀ c ∈ text.toList, c ∉ cs

/- A text without line ends. -/
abbrev Unbroken : String → Prop :=
  Lacks ['\n', '\r']

namespace Lacks

variable {cs ds : List Char} {first second text : String}

theorem of_all
    (hAll : text.toList.all (fun c => !cs.contains c) =
      true) :
    Lacks cs text := by
  intro c hMem
  simpa using List.all_eq_true.mp hAll c hMem

theorem append_iff :
    Lacks cs (first ++ second) ↔ Lacks cs first ∧
      Lacks cs second := by
  unfold Lacks
  rw [String.toList_append, List.forall_mem_append]

theorem append
    (hFirst : Lacks cs first)
    (hSecond : Lacks cs second) :
    Lacks cs (first ++ second) :=
  append_iff.mpr ⟨hFirst, hSecond⟩

theorem weaken
    (hLacks : Lacks cs text)
    (hSubset : ds ⊆ cs) :
    Lacks ds text :=
  fun c hMem hIn => hLacks c hMem (hSubset hIn)

theorem intercalate
    {separator : String}
    {texts : List String}
    (hSeparator : Lacks cs separator)
    (hTexts : ∀ text ∈ texts, Lacks cs text) :
    Lacks cs (separator.intercalate texts) := by
  induction texts with
  | nil => exact of_all rfl
  | cons first rest ih =>
      rcases List.forall_mem_cons.mp hTexts with
        ⟨hFirst, hRest⟩
      cases rest with
      | nil => simpa using hFirst
      | cons second others =>
          rw [String.intercalate_cons_cons]
          exact (hFirst.append hSeparator).append (ih hRest)

end Lacks

/- Up to a newline all characters belong to one line. -/
theorem linesFrom_append
    {line : List Char}
    (hLine : '\n' ∉ line)
    (read rest : List Char) :
    linesFrom read (line ++ '\n' :: rest) =
      trimReturn (read.reverse ++ line) ::
        linesFrom [] rest := by
  induction line generalizing read with
  | nil => simp [linesFrom]
  | cons c others ih =>
      have hNe : c ≠ '\n' :=
        fun hEq => hLine (hEq ▸ List.mem_cons_self)
      have hOthers : '\n' ∉ others := fun hMem =>
        hLine (List.mem_cons_of_mem c hMem)
      rw [List.cons_append, linesFrom, if_neg hNe,
        ih hOthers]
      simp

theorem trimReturn_of_notMem
    {line : List Char}
    (hLine : '\r' ∉ line) :
    trimReturn line = line := by
  rw [trimReturn, if_neg]
  exact fun hLast => hLine (List.mem_of_getLast? hLast)

/- The text that consists of given lines. -/
def ofLines (lines : List String) : String :=
  String.join (lines.map (· ++ "\n"))

theorem ofLines_append
    (first second : List String) :
    ofLines (first ++ second) = ofLines first ++
      ofLines second := by
  rw [ofLines, List.map_append, String.join_append]
  rfl

/- Unbroken lines are found again. -/
theorem lines_ofLines
    {rows : List String}
    (hRows : ∀ row ∈ rows, Unbroken row) :
    lines (ofLines rows) = rows.map String.toList := by
  unfold lines
  induction rows with
  | nil => rfl
  | cons row rest ih =>
      rcases List.forall_mem_cons.mp hRows with
        ⟨hRow, hRest⟩
      have hNewline : '\n' ∉ row.toList := fun hMem =>
        hRow _ hMem List.mem_cons_self
      have hReturn : '\r' ∉ row.toList := fun hMem =>
        hRow _ hMem
          (List.mem_cons_of_mem _ List.mem_cons_self)
      have hText : (ofLines (row :: rest)).toList =
          row.toList ++ '\n' :: (ofLines rest).toList := by
        simp [ofLines]
      rw [hText, linesFrom_append hNewline, ih hRest,
        trimReturn_of_notMem (by simpa using hReturn)]
      simp

end Text

/- No line ends and no names of functions. -/
abbrev Text.Plain : String → Prop :=
  Text.Lacks ['\n', '\r', '@']

theorem Text.Lacks.unbroken
    {text : String}
    (hPlain : Text.Plain text) :
    Text.Unbroken text := by
  refine hPlain.weaken ?_
  simp

namespace Ty

/- The record that a type mentions is one of those given. -/
def Known (records : List Record) : Ty → Prop
| .primitive _ => True
| .pointer t => t.Known records
| .array _ t => t.Known records
| .record serial name members =>
    ∃ r ∈ records, r.ty = .record serial name members

variable {records : List Record} {t : Ty}

theorem Known.mono
    {others : List Record}
    (hSubset : records ⊆ others) :
    ∀ {t : Ty}, t.Known records → t.Known others
| .primitive _, _ => trivial
| .pointer t, hKnown => Known.mono (t := t) hSubset hKnown
| .array _ t, hKnown => Known.mono (t := t) hSubset hKnown
| .record _ _ _, ⟨r, hMem, hType⟩ =>
    ⟨r, hSubset hMem, hType⟩

theorem known_of_isNumeric
    (hNumeric : t.IsNumeric) :
    t.Known records := by
  cases t with
  | primitive kind => trivial
  | _ => exact hNumeric.elim

theorem Known.element
    {u : Ty}
    (hKnown : t.Known records)
    (hElement : t.element? = some u) :
    u.Known records := by
  cases t with
  | array n t =>
      cases hElement
      exact hKnown
  | _ => cases hElement

end Ty

------------------------------------------------------------
-- Instructions
------------------------------------------------------------

mutual

/- The types in an operand written with its type. -/
@[simp] def Value.types : Value → List Ty
| .int _ t => [t]
| .float _ t => [t]
| .bool _ t => [t]
| .temporary _ t => [t]
| .named _ t => [t]
| .array elements t => t :: Value.allTypes elements
| .zero t => [t]
| .void t => [t]

/- The types in several operands. -/
@[simp] def Value.allTypes : List Value → List Ty
| [] => []
| v :: rest => v.types ++ Value.allTypes rest

end

mutual

/- The named registers in an operand. -/
@[simp] def Value.names : Value → List String
| .named name _ => [name]
| .array elements _ => Value.allNames elements
| _ => []

/- The named registers in several operands. -/
@[simp] def Value.allNames : List Value → List String
| [] => []
| v :: rest => v.names ++ Value.allNames rest

end

/- An operand of known types, with plain names. -/
structure Value.Proper
    (g : Globals)
    (v : Value) : Prop where
  types : ∀ t ∈ v.types, t.Known g.records
  names : ∀ name ∈ v.names, Text.Plain name

namespace Value.Proper

variable {g : Globals}

theorem ty
    {v : Value}
    (hProper : v.Proper g) :
    v.ty.Known g.records := by
  apply hProper.types
  cases v <;> simp [Value.ty]

/- Plain operands have known types only. -/
theorem of_ty
    {v : Value}
    (hTypes : v.types = [v.ty])
    (hNames : v.names = [])
    (hKnown : v.ty.Known g.records) :
    v.Proper g := by
  refine ⟨?_, ?_⟩
  · rw [hTypes]
    exact List.forall_mem_singleton.mpr hKnown
  · rw [hNames]
    exact List.forall_mem_nil _

theorem temporary
    {t : Ty}
    (n : Nat)
    (hKnown : t.Known g.records) :
    (Value.temporary n t).Proper g :=
  of_ty rfl rfl hKnown

theorem named
    {name : String}
    {t : Ty}
    (hName : Text.Plain name)
    (hKnown : t.Known g.records) :
    (Value.named name t).Proper g :=
  ⟨List.forall_mem_singleton.mpr hKnown,
    List.forall_mem_singleton.mpr hName⟩

theorem array
    {elements : List Value}
    {t : Ty}
    (hElements : ∀ v ∈ elements, v.Proper g)
    (hKnown : t.Known g.records) :
    (Value.array elements t).Proper g := by
  have hParts :
      (∀ t ∈ Value.allTypes elements, t.Known g.records) ∧
      ∀ name ∈ Value.allNames elements,
        Text.Plain name := by
    induction elements with
    | nil => simp
    | cons v rest ih =>
        rcases List.forall_mem_cons.mp hElements with
          ⟨hFirst, hRest⟩
        rcases ih hRest with ⟨hTypes, hNames⟩
        rw [Value.allTypes, Value.allNames]
        exact ⟨List.forall_mem_append.mpr
          ⟨hFirst.types, hTypes⟩,
          List.forall_mem_append.mpr ⟨hFirst.names, hNames⟩⟩
  refine ⟨?_, ?_⟩
  · rw [Value.types]
    exact List.forall_mem_cons.mpr ⟨hKnown, hParts.1⟩
  · rw [Value.names]
    exact hParts.2

end Value.Proper

namespace Instruction

/- The types that an instruction states itself. -/
def stated : Instruction → List Ty
| .allocate _ t => [t]
| .load _ t _ => [t]
| .arithmetic _ _ t _ _ => [t]
| .negate _ t _ => [t]
| .compare _ _ t _ _ => [t]
| .convert _ _ _ target => [target]
| .element _ container _ _ _ => [container]
| .call _ t _ _ => [t]
| _ => []

/- All types in an instruction. -/
def types (i : Instruction) : List Ty :=
  i.stated ++ i.operands.flatMap Value.types

/- A call agrees with a header in all of its types. -/
def Calls
    (t : Ty)
    (callee : String)
    (args : List Value)
    (p : Prototype) : Prop :=
  p.name.storage = callee ∧ p.returnType = t ∧
    p.paramTypes = args.map Value.ty

/- An instruction speaks of what the program has. -/
def Proper (g : Globals) : Instruction → Prop
| .allocate slot t => Text.Plain slot ∧ t.Known g.records
| .load _ t address => t.Known g.records ∧ address.Proper g
| .store value address => value.Proper g ∧ address.Proper g
| .arithmetic _ _ t left right =>
    t.Known g.records ∧ left.Proper g ∧ right.Proper g
| .negate _ t operand =>
    t.Known g.records ∧ operand.Proper g
| .compare _ _ t left right =>
    t.Known g.records ∧ left.Proper g ∧ right.Proper g
| .convert _ _ value target =>
    target.Known g.records ∧ value.Proper g
| .element _ container base index _ =>
    container.Known g.records ∧ base.Proper g ∧
      index.Proper g
| .call _ t callee args =>
    t.Known g.records ∧ (∀ v ∈ args, v.Proper g) ∧
      ∃ p ∈ g.prototypes, Calls t callee args p
| .merge _ _ _ => True
| .jump _ => True
| .branch condition _ _ => condition.Proper g
| .ret value => ∀ v ∈ value.toList, v.Proper g
| .verbatim _ => False

variable {g : Globals} {i : Instruction}

theorem Proper.operands
    (hProper : i.Proper g) :
    ∀ v ∈ i.operands, v.Proper g := by
  have hBoth : ∀ {v w : Value}, v.Proper g → w.Proper g →
      ∀ x ∈ [v, w], x.Proper g := fun hFirst hSecond =>
    List.forall_mem_cons.mpr
      ⟨hFirst, List.forall_mem_singleton.mpr hSecond⟩
  cases i with
  | load dest t address =>
      exact List.forall_mem_singleton.mpr hProper.2
  | store value address => exact hBoth hProper.1 hProper.2
  | arithmetic dest op t left right =>
      exact hBoth hProper.2.1 hProper.2.2
  | negate dest t operand =>
      exact List.forall_mem_singleton.mpr hProper.2
  | compare dest op t left right =>
      exact hBoth hProper.2.1 hProper.2.2
  | convert dest how value target =>
      exact List.forall_mem_singleton.mpr hProper.2
  | element dest container base index part =>
      exact hBoth hProper.2.1 hProper.2.2
  | call dest t callee args => exact hProper.2.1
  | branch condition onTrue onFalse =>
      exact List.forall_mem_singleton.mpr hProper
  | ret value => exact hProper
  | _ => exact List.forall_mem_nil _

theorem Proper.stated
    (hProper : i.Proper g) :
    ∀ t ∈ i.stated, t.Known g.records := by
  cases i with
  | allocate slot t =>
      exact List.forall_mem_singleton.mpr hProper.2
  | load dest t address =>
      exact List.forall_mem_singleton.mpr hProper.1
  | arithmetic dest op t left right =>
      exact List.forall_mem_singleton.mpr hProper.1
  | negate dest t operand =>
      exact List.forall_mem_singleton.mpr hProper.1
  | compare dest op t left right =>
      exact List.forall_mem_singleton.mpr hProper.1
  | convert dest how value target =>
      exact List.forall_mem_singleton.mpr hProper.1
  | element dest container base index part =>
      exact List.forall_mem_singleton.mpr hProper.1
  | call dest t callee args =>
      exact List.forall_mem_singleton.mpr hProper.1
  | _ => exact List.forall_mem_nil _

theorem Proper.types
    (hProper : i.Proper g) :
    ∀ t ∈ i.types, t.Known g.records := by
  refine List.forall_mem_append.mpr ⟨hProper.stated, ?_⟩
  intro t hMem
  rcases List.mem_flatMap.mp hMem with ⟨v, hOperand, hType⟩
  exact (hProper.operands v hOperand).types t hType

end Instruction

namespace Build

variable {α β : Type} {allowed : Instruction → Prop}

/-
  A step of writing that succeeds writes nothing but allowed
  instructions, and its result has a property.
-/
def Says
    (allowed : Instruction → Prop)
    (P : α → Prop)
    (x : Build α) : Prop :=
  ∀ b a b', x b = .ok a b' → b.Steps allowed b' ∧ P a

/- A step whose result says nothing. -/
abbrev Utters
    (allowed : Instruction → Prop)
    (x : Build α) : Prop :=
  Says allowed (fun _ => True) x

namespace Says

variable {P : α → Prop} {Q : β → Prop}

theorem pure
    {a : α}
    (hResult : P a) :
    Says allowed P (pure a : Build α) := by
  rintro b _ _ ⟨⟩
  exact ⟨.refl, hResult⟩

theorem throw
    (fault : Fault) :
    Says allowed P (throw fault : Build α) := by
  rintro b _ _ ⟨⟩

theorem bind
    {x : Build α}
    {f : α → Build β}
    (hFirst : Says allowed P x)
    (hSecond : ∀ a, P a → Says allowed Q (f a)) :
    Says allowed Q (x >>= f) := by
  intro b c b' hOk
  rcases Step.bind_eq_ok.mp hOk with ⟨a, b₁, hRun, hRest⟩
  rcases hFirst b a b₁ hRun with ⟨hSteps, hResult⟩
  rcases hSecond a hResult b₁ c b' hRest with
    ⟨hSteps₂, hResult₂⟩
  exact ⟨hSteps.trans hSteps₂, hResult₂⟩

/- Looking at the state writes nothing. -/
theorem getBind
    {f : Builder → Build α}
    (hNext : ∀ b, Says allowed P (f b)) :
    Says allowed P (get >>= f) :=
  fun b => hNext b b

theorem label :
    Utters allowed Build.label := by
  rintro b _ _ ⟨⟩
  exact ⟨.reserve, trivial⟩

theorem number :
    Utters allowed Build.number := by
  rintro b _ _ ⟨⟩
  exact ⟨.number, trivial⟩

theorem place
    (l : Label) :
    Utters allowed (Build.place l) := by
  rintro b _ _ ⟨⟩
  exact ⟨.place l, trivial⟩

theorem append
    {i : Instruction}
    (hAllowed : allowed i) :
    Utters allowed (Build.append i) := by
  rintro b _ _ ⟨⟩
  exact ⟨.append hAllowed, trivial⟩

theorem jump
    (l : Label) :
    Utters allowed (Build.jump l) := by
  rintro b _ _ ⟨⟩
  exact ⟨.jump l, trivial⟩

theorem branch
    {condition : Value}
    {onTrue onFalse : Option Label}
    (hAllowed : ∀ t f, allowed (.branch condition t f)) :
    Utters allowed
      (Build.branch condition onTrue onFalse) := by
  rintro b _ _ ⟨⟩
  exact ⟨Builder.Steps.carries.branch hAllowed, trivial⟩

theorem allocate
    {slot : String}
    {t : Ty}
    (hAllowed : allowed (.allocate slot t)) :
    Utters allowed (Build.allocate slot t) := by
  rintro b _ _ ⟨⟩
  exact ⟨Builder.Steps.carries.allocate hAllowed, trivial⟩

/- The operand is the temporary that is defined. -/
theorem define
    {t : Ty}
    {i : Nat → Instruction}
    {P : Value → Prop}
    (hAllowed : ∀ n, allowed (i n))
    (hResult : ∀ n, P (.temporary n t)) :
    Says allowed P (Build.define t i) := by
  refine number.bind fun dest _ => ?_
  exact (append (hAllowed dest)).bind fun _ _ =>
    .pure (hResult dest)

theorem insideLoop
    {body : Build α}
    (exit : Label)
    (hBody : Says allowed P body) :
    Says allowed P (Build.insideLoop exit body) := by
  intro b a b' hOk
  unfold Build.insideLoop at hOk
  split at hOk
  · rename_i after hRun
    cases hOk
    rcases hBody _ _ _ hRun with ⟨hSteps, hResult⟩
    exact ⟨((Builder.Steps.exits _).trans hSteps).trans
      (.exits _), hResult⟩
  · cases hOk

end Says

end Build

end Bracketry
