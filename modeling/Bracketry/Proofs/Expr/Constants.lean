import Bracketry.Proofs.Expr.Correctness
import Bracketry.Proofs.Expr.Elements
import Bracketry.Proofs.Expr.Vocabulary

/-
  This file shows that converting a constant writes nothing.

  A constant is a number, a truth value, a zero value of an
  array, record or pointer type, or an array of constants.
  Its conversion has one outcome, whatever was written
  before: a constant of the target type with as many
  elements.

  A literal is converted to every type that it completes, as
  long as a zero value that stands for an array is asked for
  in its own type.

  Main declarations:
    * `Expr.TypedByParts` and `Expr.ZerosMeet`
    * `Expr.constants_unwritten` and `Expr.zero_row_refused`
-/

namespace Bracketry

variable {t : Ty} {v : Value}

namespace Build

variable {α β : Type} {x : Build α}

/- A step that gives a result and writes nothing. -/
def Returns
    (x : Build α)
    (a : α) : Prop :=
  ∀ b, x b = .ok a b

/- A step that has a fault and writes nothing. -/
def Refuses
    (x : Build α)
    (fault : Fault) : Prop :=
  ∀ b, x b = .error fault b

/-
  A step that writes nothing and does not look at what was
  written.  Its result, if there is one, has a property.
-/
def Silent
    (P : α → Prop)
    (x : Build α) : Prop :=
  (∃ a, x.Returns a ∧ P a) ∨ ∃ fault, x.Refuses fault

namespace Silent

variable {P : α → Prop} {Q : β → Prop} {x : Build α}

theorem pure
    {a : α}
    (hResult : P a) :
    Silent P (Pure.pure a) :=
  .inl ⟨a, fun _ => rfl, hResult⟩

theorem throw
    (fault : Fault) :
    Silent P (MonadExcept.throw fault) :=
  .inr ⟨fault, fun _ => rfl⟩

theorem bind
    {f : α → Build β}
    (hFirst : Silent P x)
    (hSecond : ∀ a, P a → Silent Q (f a)) :
    Silent Q (x >>= f) := by
  rcases hFirst with
    ⟨a, hReturns, hResult⟩ | ⟨fault, hRefuses⟩
  · have hBoth : ∀ b, (x >>= f) b = f a b :=
      fun b => Step.bind_of_ok (hReturns b)
    rcases hSecond a hResult with
      ⟨c, hThen, hOutcome⟩ | ⟨fault, hThen⟩
    · exact .inl
        ⟨c, fun b => (hBoth b).trans (hThen b), hOutcome⟩
    · exact .inr ⟨fault, fun b => (hBoth b).trans (hThen b)⟩
  · exact .inr
      ⟨fault, fun b => Step.bind_of_error (hRefuses b)⟩

end Silent

/- Of two steps that write nothing, both have to succeed. -/
theorem Silent.bind_returns_iff
    {P : α → Prop}
    {f : α → Build β}
    (hFirst : Silent P x) :
    (∃ c, (x >>= f).Returns c) ↔
      ∃ a, x.Returns a ∧ ∃ c, (f a).Returns c := by
  constructor
  · rintro ⟨c, hBoth⟩
    rcases hFirst with ⟨a, hReturns, -⟩ | ⟨fault, hRefuses⟩
    · refine ⟨a, hReturns, c, fun b => ?_⟩
      rw [← hBoth b, Step.bind_of_ok (hReturns b)]
    · have hFault := hBoth .empty
      rw [Step.bind_of_error (hRefuses .empty)] at hFault
      cases hFault
  · rintro ⟨a, hReturns, c, hThen⟩
    exact ⟨c, fun b => (Step.bind_of_ok (hReturns b)).trans
      (hThen b)⟩

theorem pure_returns
    (a : α) :
    ∃ c, (Pure.pure a : Build α).Returns c :=
  ⟨a, fun _ => rfl⟩

/- A step that refuses gives no result. -/
theorem Refuses.not_returns
    {fault : Fault}
    (hRefuses : x.Refuses fault) :
    ¬ ∃ a, x.Returns a := by
  rintro ⟨a, hReturns⟩
  cases (hReturns .empty).symm.trans (hRefuses .empty)

end Build

/- The types whose values have parts or are addresses. -/
def Ty.IsCompound : Ty → Prop
| .primitive _ => False
| _ => True

theorem Ty.IsCompound.not_isNumeric
    (hCompound : t.IsCompound) :
    ¬ t.IsNumeric := by
  cases t with
  | primitive kind => exact hCompound.elim
  | _ => exact id

namespace Value

theorem areConstant_iff
    {values : List Value} :
    areConstant values = true ↔
      ∀ v ∈ values, v.isConstant = true := by
  induction values with
  | nil => simp [areConstant]
  | cons v rest ih => simp [areConstant, ih]

/- A folded integer is a constant of the type asked for. -/
theorem ofInt?_constant
    {n : Int}
    {source target : Ty}
    (hFold : ofInt? n source target = some v) :
    v.isConstant = true ∧ v.ty = target := by
  unfold ofInt? at hFold
  split at hFold <;> cases hFold <;> exact ⟨rfl, rfl⟩

/- So is a folded float. -/
theorem ofFloat?_constant
    {x : Double}
    {target : Ty}
    (hFold : ofFloat? x target = some v) :
    v.isConstant = true ∧ v.ty = target := by
  unfold ofFloat? at hFold
  split at hFold <;> cases hFold <;> exact ⟨rfl, rfl⟩

end Value

namespace Expr

variable {es : List Expr} {node : Node} {line : Nat}

/-
  Literals all the way down, where zero values stand for
  what has no literal of its own.
-/
inductive Constant : Expr → Prop
| int {n : Int} {t : Ty} {line : Nat} :
    Constant (.int n t line)
| float {x : Double} {line : Nat} :
    Constant (.float x line)
| boolean {value : Bool} {line : Nat} :
    Constant (.boolean value line)
| zero {t : Ty} {line : Nat}
    (hCompound : t.IsCompound) :
    Constant (.zero t line)
| array {elements : List Expr} {t : Ty} {line : Nat}
    (hEach : ∀ e ∈ elements, Constant e) :
    Constant (.array elements t line)

variable {e : Expr} {target : Ty} {elements : List Expr}

theorem mem_allNodes
    (hMem : e ∈ es)
    (hNode : node ∈ e.nodes) :
    node ∈ allNodes es := by
  induction es with
  | nil => cases hMem
  | cons first rest ih =>
      rw [allNodes]
      rcases List.mem_cons.mp hMem with rfl | hRest
      · exact List.mem_append_left _ hNode
      · exact List.mem_append_right _ (ih hRest)

/- A node of an element is a node of the literal. -/
theorem mem_nodes_array
    (hMem : e ∈ es)
    (hNode : node ∈ e.nodes) :
    node ∈ (Expr.array es t line).nodes := by
  rw [nodes]
  exact List.mem_cons_of_mem _ (mem_allNodes hMem hNode)

mutual

theorem constant_of_isConstant :
    ∀ e : Expr, e.isConstant = true →
      (∀ t line, .expr (.zero t line) ∈ e.nodes →
        t.IsCompound) → e.Constant
| .int _ _ _, _, _ => .int
| .float _ _, _, _ => .float
| .boolean _ _, _, _ => .boolean
| .zero t line, _, hZeros => by
    refine .zero (hZeros t line ?_)
    rw [nodes]
    exact List.mem_singleton.mpr rfl
| .array elements t line, hConstant, hZeros => by
    rw [isConstant] at hConstant
    refine .array
      (constant_of_areConstant elements hConstant ?_)
    intro e hMem u row hNode
    exact hZeros u row (mem_nodes_array hMem hNode)
| .read _ _, hConstant, _ =>
    absurd hConstant Bool.false_ne_true
| .arithmetic _ _ _ _ _, hConstant, _ =>
    absurd hConstant Bool.false_ne_true
| .negate _ _ _, hConstant, _ =>
    absurd hConstant Bool.false_ne_true
| .call _ _ _ _ _ _, hConstant, _ =>
    absurd hConstant Bool.false_ne_true
| .compare _ _ _ _, hConstant, _ =>
    absurd hConstant Bool.false_ne_true
| .and _ _ _, hConstant, _ =>
    absurd hConstant Bool.false_ne_true
| .or _ _ _, hConstant, _ =>
    absurd hConstant Bool.false_ne_true
| .not _ _, hConstant, _ =>
    absurd hConstant Bool.false_ne_true

theorem constant_of_areConstant :
    ∀ es : List Expr, areConstant es = true →
      (∀ e ∈ es, ∀ t line, .expr (.zero t line) ∈ e.nodes →
        t.IsCompound) →
        ∀ e ∈ es, e.Constant
| [], _, _ => List.forall_mem_nil _
| first :: rest, hConstant, hZeros => by
    rw [areConstant, Bool.and_eq_true] at hConstant
    rw [List.forall_mem_cons] at hZeros ⊢
    exact ⟨constant_of_isConstant first hConstant.1
      hZeros.1, constant_of_areConstant rest hConstant.2
        hZeros.2⟩

end

------------------------------------------------------------
-- Conversion
------------------------------------------------------------

/-
  What a constant becomes in a type: each number is folded,
  a truth value and a zero value stay what they are, and a
  literal becomes as many elements, each from its own.
-/
inductive Mirrored : Expr → Ty → Value → Prop
| int {n : Int} {t : Ty} {line : Nat} {target : Ty}
    {v : Value} (hFold : Value.ofInt? n t target = some v) :
    Mirrored (.int n t line) target v
| float {x : Double} {line : Nat} {target : Ty} {v : Value}
    (hFold : Value.ofFloat? x target = some v) :
    Mirrored (.float x line) target v
| boolean {value : Bool} {line : Nat} :
    Mirrored (.boolean value line) .bool (.bool value .bool)
| zero {t : Ty} {line : Nat} :
    Mirrored (.zero t line) t (.zero t)
| array {elements : List Expr} {t : Ty} {line n : Nat}
    {target : Ty} {values : List Value}
    (hLength : values.length = elements.length)
    (hEach :
      ∀ (i : Nat) (e : Expr) (v : Value), elements[i]? =
        some e → values[i]? = some v →
          Mirrored e target v) :
    Mirrored (.array elements t line) (.array n target)
      (.array values (.array n target))

/- What is known of the constant that a conversion gives. -/
structure Becomes
    (e : Expr)
    (target : Ty)
    (v : Value) : Prop where
  constant : v.isConstant = true
  ty_eq : v.ty = target
  mirrored : e.Mirrored target v

/- What is no number converts to its own type only. -/
theorem convertValue_refuses
    (hNumeric : ¬ v.ty.IsNumeric)
    (hOther : v.ty ≠ target)
    (line : Nat) :
    (Build.convertValue v target line).Refuses
      ⟨.noConversion v.ty target, line⟩ := by
  have hNone : Conversion.between? v.ty target = none := by
    rw [Option.eq_none_iff_forall_ne_some]
    exact fun how hSome =>
      hNumeric (Conversion.isNumeric_of_between? hSome)
  intro b
  rw [Build.convertValue, if_neg hOther, hNone]
  rfl

theorem convertValue_returns
    (v : Value)
    (line : Nat) :
    (Build.convertValue v v.ty line).Returns v := by
  intro b
  rw [Build.convertValue, if_pos rfl]
  rfl

theorem convertValue_silent
    (hNumeric : ¬ v.ty.IsNumeric)
    (hBecomes : e.Becomes v.ty v)
    (target : Ty)
    (line : Nat) :
    (Build.convertValue v target line).Silent
      (e.Becomes target) := by
  by_cases hSame : v.ty = target
  · subst hSame
    exact .inl ⟨v, convertValue_returns v line, hBecomes⟩
  · exact .inr ⟨_, convertValue_refuses hNumeric hSame line⟩

/- A number is folded, or there is no conversion. -/
theorem ofLiteral_silent
    {value : Value}
    {fold : Ty → Option Value}
    (hBecomes : ∀ v, fold target = some v →
      e.Becomes target v)
    (line : Nat) :
    ((Lowering.ofLiteral value fold line).convert
      target).Silent (e.Becomes target) := by
  simp only [Lowering.ofLiteral, Lowering.ofConvert]
  cases hFold : fold target with
  | some v => exact .pure (hBecomes v hFold)
  | none => exact .throw _

theorem convert_boolean
    (value : Bool)
    (line : Nat)
    (target : Ty) :
    (Expr.boolean value line).convert target =
      Build.convertValue (.bool value .bool) target
        line := by
  rw [convert, lower]
  rfl

theorem convert_zero
    (t : Ty)
    (line : Nat)
    (target : Ty) :
    (Expr.zero t line).convert target =
      Build.convertValue (.zero t) target line := by
  rw [convert, lower]
  rfl

theorem convert_array
    (elements : List Expr)
    (t : Ty)
    (line n : Nat)
    (target : Ty) :
    (Expr.array elements t line).convert
      (.array n target) = do
        let values ← Lowering.convertAll target
          (lowerAll elements)
        return .array values (.array n target) := by
  rw [convert, lower]
  rfl

/- An array literal does not become what is no array. -/
theorem convert_array_refuses
    (hElement : target.element? = none) :
    ((Expr.array elements t line).convert target).Refuses
      ⟨.noConversion t target, line⟩ := by
  intro b
  rw [convert, lower]
  change Lowering.array (lowerAll elements) t line
    target b = _
  rw [Lowering.array, hElement]
  rfl

theorem convertAll_cons
    (target : Ty)
    (first : Expr)
    (rest : List Expr) :
    Lowering.convertAll target
      (lowerAll (first :: rest)) = do
        let value ← first.convert target
        let values ← Lowering.convertAll target
          (lowerAll rest)
        return value :: values := by
  rw [lowerAll]
  rfl

/- Elements that are converted in silence, all together. -/
theorem convertAll_silent
    (hEach :
      ∀ e ∈ elements,
        (e.convert target).Silent (e.Becomes target)) :
    (Lowering.convertAll target (lowerAll elements)).Silent
      fun values =>
        values.length = elements.length ∧
          ∀ (i : Nat) (e : Expr) (v : Value), elements[i]? =
            some e → values[i]? = some v →
              e.Becomes target v := by
  induction elements with
  | nil => exact .pure ⟨rfl, fun i e v hAt => by cases hAt⟩
  | cons first rest ih =>
      rw [List.forall_mem_cons] at hEach
      rw [convertAll_cons]
      refine Build.Silent.bind hEach.1 fun v hFirst => ?_
      refine Build.Silent.bind (ih hEach.2)
        fun values hRest => ?_
      refine .pure ⟨congrArg (· + 1) hRest.1, ?_⟩
      intro i e w hExpr hValue
      cases i with
      | zero =>
          cases hExpr
          cases hValue
          exact hFirst
      | succ i => exact hRest.2 i e w hExpr hValue

theorem Becomes.array
    {t : Ty}
    {line n : Nat}
    {values : List Value}
    (hLength : values.length = elements.length)
    (hEach :
      ∀ (i : Nat) (e : Expr) (v : Value), elements[i]? =
        some e → values[i]? = some v → e.Becomes target v) :
    (Expr.array elements t line).Becomes (.array n target)
      (.array values (.array n target)) := by
  refine ⟨?_, rfl, .array hLength fun i e v hExpr hValue =>
    (hEach i e v hExpr hValue).mirrored⟩
  rw [Value.isConstant, Value.areConstant_iff]
  intro v hMem
  rcases List.getElem?_of_mem hMem with ⟨i, hValue⟩
  have hIndex : i < elements.length := by
    rw [← hLength]
    exact (List.getElem?_eq_some_iff.mp hValue).1
  exact (hEach i _ v (List.getElem?_eq_getElem hIndex)
    hValue).constant

/- A constant is converted in silence. -/
theorem Constant.silent
    (hConstant : e.Constant)
    (target : Ty) :
    (e.convert target).Silent (e.Becomes target) := by
  induction hConstant generalizing target with
  | @int n t line =>
      rw [convert, lower]
      refine ofLiteral_silent ?_ line
      intro v hFold
      rcases Value.ofInt?_constant hFold with
        ⟨hKnown, hType⟩
      exact ⟨hKnown, hType, .int hFold⟩
  | @float x line =>
      rw [convert, lower]
      refine ofLiteral_silent ?_ line
      intro v hFold
      rcases Value.ofFloat?_constant hFold with
        ⟨hKnown, hType⟩
      exact ⟨hKnown, hType, .float hFold⟩
  | @boolean value line =>
      rw [convert_boolean]
      exact convertValue_silent id ⟨rfl, rfl, .boolean⟩
        target line
  | @zero t line hCompound =>
      rw [convert_zero]
      exact convertValue_silent (v := .zero t)
        hCompound.not_isNumeric
        ⟨rfl, rfl, .zero⟩ target line
  | @array elements t line hEach ih =>
      cases target with
      | array n target =>
          rw [convert_array]
          refine Build.Silent.bind
            (convertAll_silent fun e hMem =>
              ih e hMem target) ?_
          rintro values ⟨hLength, hAll⟩
          exact .pure (.array hLength hAll)
      | _ => exact .inr ⟨_, convert_array_refuses rfl⟩

end Expr

------------------------------------------------------------
-- Types of Literals
------------------------------------------------------------

namespace Ty

variable {a u : Ty}

/- Completing is transitive. -/
theorem inferFrom_trans
    {declared common a t : Ty}
    (hOuter : declared.inferFrom common = some t)
    (hInner : common.inferFrom a = some common) :
    declared.inferFrom a = some t := by
  rcases inferFrom_eq_some_iff.mp hOuter with
    ⟨hLevels, hConverts, hShape⟩
  rcases inferFrom_eq_some_iff.mp hInner with
    ⟨-, hConverts', hShape'⟩
  have hLengths : common.lengths = a.lengths := by
    rw [hShape',
      lengths_ofShape (innermost_not_isArray common)]
  rw [hLengths] at hLevels hShape
  exact inferFrom_eq_some_iff.mpr
    ⟨hLevels, hConverts'.trans hConverts, hShape⟩

/- Each element completes the common type. -/
theorem inferFrom_of_foldlM
    {first u : Ty}
    {rest : List Ty}
    (hCommon : rest.foldlM unify first = some u) :
    ∀ a ∈ first :: rest, u.inferFrom a = some u := by
  induction rest generalizing first with
  | nil =>
      cases hCommon
      rw [List.forall_mem_singleton]
      exact inferFrom_of_unify (unify_self u)
  | cons second rest ih =>
      rw [List.foldlM_cons, Option.bind_eq_bind,
        Option.bind_eq_some_iff] at hCommon
      rcases hCommon with ⟨v, hUnify, hRest⟩
      have hAll := ih hRest
      rw [List.forall_mem_cons] at hAll
      rw [List.forall_mem_cons, List.forall_mem_cons]
      have hOther : second.unify first = some v := by
        rw [unify_comm]
        exact hUnify
      exact ⟨inferFrom_trans hAll.1
        (inferFrom_of_unify hUnify),
        inferFrom_trans hAll.1 (inferFrom_of_unify hOther),
          hAll.2⟩

theorem inferFrom_of_common?
    {ts : List Ty}
    (hCommon : common? ts = some u)
    (hMem : a ∈ ts) :
    u.inferFrom a = some u := by
  cases ts with
  | nil => cases hMem
  | cons first rest =>
      exact inferFrom_of_foldlM hCommon a hMem

/- What is no array completes what it converts to. -/
theorem convertsTo_of_inferFrom
    {declared literal t : Ty}
    (hScalar : ¬ literal.IsArray)
    (hInfer : declared.inferFrom literal = some t) :
    literal.ConvertsTo declared := by
  rcases inferFrom_eq_some_iff.mp hInfer with
    ⟨hLevels, hConverts, -⟩
  rw [lengths_of_not_isArray hScalar,
    List.forall₂_nil_right_iff] at hLevels
  rw [innermost_of_not_isArray hScalar] at hConverts
  have hWhole := ofShape_lengths declared
  rw [hLevels] at hWhole
  rwa [← hWhole]

end Ty

namespace Expr

variable {e : Expr}

/-
  Numbers have numeric types, and every literal has the type
  that the types of its elements make.
-/
structure TypedByParts (e : Expr) : Prop where
  numbers : ∀ n t line, .expr (.int n t line) ∈ e.nodes →
    t.IsNumeric
  literals : ∀ elements t line,
    .expr (.array elements t line) ∈ e.nodes →
      Ty.literal? (elements.map ty) = some t

/-
  Every zero value that stands for an array is asked for in
  its own type.
-/
inductive ZerosMeet : Expr → Ty → Prop
| zero {t : Ty} {line : Nat} {target : Ty}
    (hSame : t.IsArray → t = target) :
    ZerosMeet (.zero t line) target
| array {elements : List Expr} {t : Ty} {line n : Nat}
    {target : Ty}
      (hEach : ∀ e ∈ elements, ZerosMeet e target) :
    ZerosMeet (.array elements t line) (.array n target)
| int {n : Int} {t : Ty} {line : Nat} {target : Ty} :
    ZerosMeet (.int n t line) target
| float {x : Double} {line : Nat} {target : Ty} :
    ZerosMeet (.float x line) target
| boolean {value : Bool} {line : Nat} {target : Ty} :
    ZerosMeet (.boolean value line) target

variable {elements : List Expr} {target : Ty}

theorem TypedByParts.element
    {line : Nat}
    (hTyped : (Expr.array elements t line).TypedByParts)
    (hMem : e ∈ elements) :
    e.TypedByParts :=
  ⟨fun n u row hNode =>
    hTyped.numbers n u row (mem_nodes_array hMem hNode),
    fun es u row hNode =>
      hTyped.literals es u row (mem_nodes_array hMem hNode)⟩

/- Elements complete what their literal completes. -/
theorem TypedByParts.inferFrom
    {t : Ty}
    {line : Nat}
    (hTyped : (Expr.array elements t line).TypedByParts)
    (hInfer : (target.inferFrom t).isSome = true) :
    ∃ n u, target = .array n u ∧
      ∀ e ∈ elements, (u.inferFrom e.ty).isSome = true := by
  have hLiteral := hTyped.literals elements t line (by simp)
  rcases Option.map_eq_some_iff.mp hLiteral with
    ⟨common, hCommon, rfl⟩
  cases target with
  | array n u =>
      refine ⟨n, u, rfl, fun e hMem => ?_⟩
      rcases Option.isSome_iff_exists.mp hInfer with
        ⟨w, hWhole⟩
      have hElement : (u.inferFrom common).isSome =
          true := by
        rw [Ty.inferFrom] at hWhole
        split at hWhole
        · rcases Option.map_eq_some_iff.mp hWhole with
            ⟨v, hInner, -⟩
          rw [hInner]
          rfl
        · cases hWhole
      rcases Option.isSome_iff_exists.mp hElement with
        ⟨v, hInner⟩
      rw [Ty.inferFrom_trans hInner
        (Ty.inferFrom_of_common? hCommon
          (List.mem_map_of_mem hMem))]
      rfl
  | _ => cases hInfer

/- Elements are converted together if each of them is. -/
theorem convertAll_returns_iff
    (hEach :
      ∀ e ∈ elements,
        (e.convert target).Silent (e.Becomes target)) :
    (∃ values,
        (Lowering.convertAll target
          (lowerAll elements)).Returns values) ↔
      ∀ e ∈ elements, ∃ v,
        (e.convert target).Returns v := by
  induction elements with
  | nil =>
      exact iff_of_true (Build.pure_returns [])
        (List.forall_mem_nil _)
  | cons first rest ih =>
      rw [List.forall_mem_cons] at hEach ⊢
      rw [← ih hEach.2, convertAll_cons,
        Build.Silent.bind_returns_iff hEach.1]
      simp only [Build.Silent.bind_returns_iff
        (convertAll_silent hEach.2),
        Build.pure_returns, and_true, exists_and_right]

/- A number is converted to every type that it completes. -/
theorem ofLiteral_returns
    {value : Value}
    {fold : Ty → Option Value}
    {source target : Ty}
    (hFold : ∀ t : Ty, t.IsNumeric → ∃ v, fold t = some v)
    (hSource : source.IsNumeric)
    (hInfer : (target.inferFrom source).isSome = true)
    (line : Nat) :
    ∃ v, ((Lowering.ofLiteral value fold line).convert
      target).Returns v := by
  rcases Option.isSome_iff_exists.mp hInfer with ⟨w, hWhole⟩
  have hTarget : target.IsNumeric := by
    rcases Ty.convertsTo_of_inferFrom hSource.not_isArray
      hWhole with
      rfl | hBoth
    · exact hSource
    · exact hBoth.2
  rcases hFold target hTarget with ⟨v, hSome⟩
  exact ⟨v, ofLiteral_convert hSome line⟩

/- What is no number completes its own type only. -/
theorem eq_of_inferFrom
    {source target : Ty}
    (hNumeric : ¬ source.IsNumeric)
    (hScalar : ¬ source.IsArray)
    (hInfer : (target.inferFrom source).isSome = true) :
    source = target := by
  rcases Option.isSome_iff_exists.mp hInfer with ⟨w, hWhole⟩
  rcases Ty.convertsTo_of_inferFrom hScalar hWhole with
    hEq | hBoth
  · exact hEq
  · exact absurd hBoth.1 hNumeric

/-
  A constant that is typed by its parts is converted to a
  type that it completes exactly if its zero values meet
  theirs.
-/
theorem Constant.returns_iff
    (hConstant : e.Constant)
    (hTyped : e.TypedByParts)
    (hInfer : (target.inferFrom e.ty).isSome = true) :
    (∃ v, (e.convert target).Returns v) ↔
      e.ZerosMeet target := by
  induction hConstant generalizing target with
  | @int n t line =>
      refine iff_of_true ?_ .int
      have hSource := hTyped.numbers n t line (by simp)
      rw [convert, lower]
      refine ofLiteral_returns ?_ hSource hInfer line
      intro u hNumeric
      rcases (Ty.isNumeric_iff u).mp hNumeric with
        rfl | rfl | rfl <;> exact ⟨_, rfl⟩
  | @float x line =>
      refine iff_of_true ?_ .float
      have hSource : Ty.float.IsNumeric := trivial
      rw [convert, lower]
      refine ofLiteral_returns ?_ hSource hInfer line
      intro u hNumeric
      rcases (Ty.isNumeric_iff u).mp hNumeric with
        rfl | rfl | rfl <;> exact ⟨_, rfl⟩
  | @boolean value line =>
      refine iff_of_true ?_ .boolean
      have hNumeric : ¬ Ty.bool.IsNumeric := id
      cases eq_of_inferFrom hNumeric id hInfer
      rw [convert_boolean]
      exact ⟨_,
        convertValue_returns (.bool value .bool) line⟩
  | @zero t line hCompound =>
      have hNumeric : ¬ t.IsNumeric :=
        hCompound.not_isNumeric
      rw [convert_zero]
      by_cases hSame : t = target
      · subst hSame
        exact iff_of_true
          ⟨_, convertValue_returns (.zero t) line⟩
          (.zero fun _ => rfl)
      · refine iff_of_false
          (convertValue_refuses (v := .zero t) hNumeric
            hSame line).not_returns ?_
        rintro ⟨hMeets⟩
        by_cases hArray : t.IsArray
        · exact hSame (hMeets hArray)
        · exact hSame
            (eq_of_inferFrom hNumeric hArray hInfer)
  | @array elements t line hEach ih =>
      rcases hTyped.inferFrom hInfer with
        ⟨n, u, rfl, hElements⟩
      have hSilent := fun e hMem => (hEach e hMem).silent u
      have hAll : (Expr.array elements t line).ZerosMeet
          (.array n u) ↔ ∀ e ∈ elements, e.ZerosMeet u := by
        constructor
        · rintro ⟨⟩
          assumption
        · exact .array
      rw [convert_array,
        Build.Silent.bind_returns_iff
          (convertAll_silent hSilent), hAll]
      simp only [Build.pure_returns, and_true]
      rw [convertAll_returns_iff hSilent]
      exact forall₂_congr fun e hMem =>
        ih e hMem (hTyped.element hMem) (hElements e hMem)

/- Without zero arrays there is nothing to meet. -/
theorem Constant.zerosMeet
    (hConstant : e.Constant)
    (hTyped : e.TypedByParts)
    (hInfer : (target.inferFrom e.ty).isSome = true)
    (hZeros : ∀ t line, .expr (.zero t line) ∈ e.nodes →
      ¬ t.IsArray) :
    e.ZerosMeet target := by
  induction hConstant generalizing target with
  | int => exact .int
  | float => exact .float
  | boolean => exact .boolean
  | @zero t line _ =>
      exact .zero fun hArray =>
        absurd hArray (hZeros t line (by simp))
  | @array elements t line hEach ih =>
      rcases hTyped.inferFrom hInfer with
        ⟨n, u, rfl, hElements⟩
      refine .array fun e hMem =>
        ih e hMem (hTyped.element hMem)
        (hElements e hMem) fun w row hNode => ?_
      exact hZeros w row (mem_nodes_array hMem hNode)

/-
  Converting a constant leaves the code as it is, with a
  result or with a fault, and does the same wherever it is
  done.  A result is a constant of the type asked for, with
  one element for each element of a literal and in the same
  order.

  A literal that is typed by its parts has a result in every
  type that it completes, exactly if each zero value for an
  array is asked for in its own type; so it always has one
  if it holds no such zero value.
-/
theorem constants_unwritten
    {e : Expr}
    (hConstant : e.isConstant = true)
    (hZeros : ∀ t line, .expr (.zero t line) ∈ e.nodes →
      t.IsCompound)
    (target : Ty) :
    ((∃ v, (∀ b, e.convert target b = .ok v b) ∧
          v.isConstant = true ∧ v.ty = target ∧
            e.Mirrored target v) ∨
        ∃ fault, ∀ b, e.convert target b = .error fault b) ∧
      (e.TypedByParts →
        (target.inferFrom e.ty).isSome = true →
        ((∃ v, ∀ b, e.convert target b = .ok v b) ↔
          e.ZerosMeet target) ∧
          ((∀ t line, .expr (.zero t line) ∈ e.nodes →
            ¬ t.IsArray) →
              ∃ v, ∀ b, e.convert target b = .ok v b)) := by
  have hTree := constant_of_isConstant e hConstant hZeros
  refine ⟨?_, ?_⟩
  · rcases hTree.silent target with
      ⟨v, hReturns, hBecomes⟩ | hRefuses
    · exact .inl
        ⟨v, hReturns, hBecomes.constant, hBecomes.ty_eq,
        hBecomes.mirrored⟩
    · exact .inr hRefuses
  · intro hTyped hInfer
    have hIff := hTree.returns_iff hTyped hInfer
    exact ⟨hIff, fun hNone =>
      hIff.mpr (hTree.zerosMeet hTyped hInfer hNone)⟩

/-
  Rows of numbers of several types, for an array of floats
  whose length is left open, and two zero values of one
  record.
-/
theorem rows_unwritten :
    let rows : Expr :=
      .array
        [.array [.int 1 .int 1, .float .zero 1]
          (.array 2 .float) 1,
          .array [.int 97 .char 2, .int (-7) .int 2]
            (.array 2 .int) 2]
        (.array 2 (.array 2 .float)) 1
    let target : Ty := .array 0 (.array 2 .float)
    let pair : Expr :=
      .array [.zero (.record 0 "P" []) 1,
        .zero (.record 0 "P" []) 1]
        (.array 2 (.record 0 "P" [])) 1
    rows.isConstant = true ∧ rows.TypedByParts ∧
      (target.inferFrom rows.ty).isSome = true ∧
      (∃ v, ∀ b, rows.convert target b = .ok v b) ∧
      pair.isConstant = true ∧ pair.TypedByParts ∧
      ∃ v, ∀ b, pair.convert pair.ty b = .ok v b := by
  intro rows target pair
  have hRows : rows.TypedByParts := by
    refine ⟨?_, ?_⟩
    · intro n t line hNode
      simp only [rows, nodes, allNodes, List.mem_cons,
        List.mem_append, List.not_mem_nil, or_false,
          Node.expr.injEq, reduceCtorEq, false_or,
        int.injEq] at hNode
      rcases hNode with
        ⟨-, rfl, -⟩ | ⟨-, rfl, -⟩ | ⟨-, rfl, -⟩ <;> trivial
    · intro elements t line hNode
      simp only [rows, nodes, allNodes, List.mem_cons,
        List.mem_append, List.not_mem_nil, or_false,
          Node.expr.injEq, reduceCtorEq,
        array.injEq] at hNode
      rcases hNode with
        ⟨rfl, rfl, -⟩ | ⟨rfl, rfl, -⟩ | ⟨rfl, rfl, -⟩ <;>
        decide
  have hPair : pair.TypedByParts := by
    refine ⟨?_, ?_⟩
    · intro n t line hNode
      simp [pair] at hNode
    · intro elements t line hNode
      simp only [pair, nodes, allNodes, List.mem_cons,
        List.mem_append, List.not_mem_nil, or_false,
          Node.expr.injEq, reduceCtorEq,
        array.injEq] at hNode
      rcases hNode with ⟨rfl, rfl, -⟩
      decide
  have hNone : ∀ t line, .expr (.zero t line) ∉
      rows.nodes := by
    intro t line hNode
    simp [rows] at hNode
  have hRecord : ∀ t line, .expr (.zero t line) ∈
      pair.nodes → t = .record 0 "P" [] := by
    intro t line hNode
    have hZero : t = .record 0 "P" [] ∧ line = 1 := by
      simpa [pair] using hNode
    exact hZero.1
  have hInfer : (target.inferFrom rows.ty).isSome =
    true := by decide
  have hFirst := (constants_unwritten (e := rows) rfl
    (fun t line hNode => absurd hNode (hNone t line))
      target).2 hRows hInfer
  have hSecond := (constants_unwritten (e := pair) rfl
    (fun t line hNode => hRecord t line hNode ▸ trivial)
      pair.ty).2 hPair (by decide)
  exact ⟨rfl, hRows, hInfer,
    hFirst.2 fun t line hNode =>
      absurd hNode (hNone t line), rfl, hPair,
    hSecond.2 fun t line hNode => hRecord t line hNode ▸ id⟩

/-
  A zero value for three integers is no literal of three
  elements, so it does not become three floats, although the
  type of the literal around it would do so.
-/
theorem zero_row_refused :
    let row : Expr :=
      .array [.zero (.array 3 .int) 1]
        (.array 1 (.array 3 .int)) 1
    let target : Ty := .array 1 (.array 3 .float)
    row.isConstant = true ∧
      (∀ t line, .expr (.zero t line) ∈ row.nodes →
        t.IsCompound) ∧
      row.IsArrayLiteral ∧ row.TypedByParts ∧
      (target.inferFrom row.ty).isSome = true ∧
      ∀ b, row.convert target b =
        .error
          ⟨.noConversion (.array 3 .int) (.array 3 .float),
            1⟩ b := by
  intro row target
  refine ⟨rfl, ?_, trivial, ⟨?_, ?_⟩, by decide,
    fun b => rfl⟩
  · intro t line hNode
    simp only [row, nodes, allNodes, List.mem_cons,
      List.append_nil, List.not_mem_nil, or_false,
        Node.expr.injEq, reduceCtorEq, false_or,
      zero.injEq] at hNode
    rw [hNode.1]
    trivial
  · intro n t line hNode
    simp [row] at hNode
  · intro elements t line hNode
    simp only [row, nodes, allNodes, List.mem_cons,
      List.append_nil, List.not_mem_nil, or_false,
        Node.expr.injEq, reduceCtorEq,
      array.injEq] at hNode
    rcases hNode with ⟨rfl, rfl, -⟩
    decide

end Expr

end Bracketry
