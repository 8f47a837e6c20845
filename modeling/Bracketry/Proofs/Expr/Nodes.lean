import Bracketry.Proofs.Expr.Acceptance
import Bracketry.Proofs.Scope.Globals

/-
  This file shows that every node of an expression which is
  read has the type that its parts give it.

  A rule looks at one node and its direct parts, and at the
  header that a call refers to by its number.  Headers are
  only told in other words later on, so a node that keeps
  the rule when it is read keeps it in the whole program.

  Main declarations:
    * `Place.Obeys` and `Expr.Obeys`
    * `Node.Obeys.grow` and `Expr.Read.obeys`
-/

namespace Bracketry

/- A node of an expression. -/
inductive Node where
| place (part : Place)
| expr (e : Expr)

mutual

/- A place with all nodes below it. -/
@[simp] def Place.nodes : Place → List Node
| .var x => [.place (.var x)]
| .element parent index t =>
    .place (.element parent index t) ::
      (parent.nodes ++ index.nodes)
| .member parent position name t =>
    .place (.member parent position name t) :: parent.nodes

/- An expression with all nodes below it. -/
@[simp] def Expr.nodes : Expr → List Node
| .int value t line => [.expr (.int value t line)]
| .float value line => [.expr (.float value line)]
| .boolean value line => [.expr (.boolean value line)]
| .array elements t line =>
    .expr (.array elements t line) :: Expr.allNodes elements
| .zero t line => [.expr (.zero t line)]
| .read place line =>
    .expr (.read place line) :: place.nodes
| .arithmetic op left right t line =>
    .expr (.arithmetic op left right t line) ::
      (left.nodes ++ right.nodes)
| .negate operand t line =>
    .expr (.negate operand t line) :: operand.nodes
| .call callee prototype args params t line =>
    .expr (.call callee prototype args params t line) ::
      Expr.allNodes args
| .compare op left right line =>
    .expr (.compare op left right line) ::
      (left.nodes ++ right.nodes)
| .and left right line =>
    .expr (.and left right line) ::
      (left.nodes ++ right.nodes)
| .or left right line =>
    .expr (.or left right line) ::
      (left.nodes ++ right.nodes)
| .not operand line =>
    .expr (.not operand line) :: operand.nodes

/- The nodes of several expressions. -/
@[simp] def Expr.allNodes : List Expr → List Node
| [] => []
| e :: rest => e.nodes ++ Expr.allNodes rest

end

theorem Expr.forall_allNodes
    {P : Node → Prop}
    {es : List Expr}
    (hEach : ∀ e ∈ es, ∀ node ∈ e.nodes, P node) :
    ∀ node ∈ Expr.allNodes es, P node := by
  induction es with
  | nil => simp [Expr.allNodes]
  | cons e rest ih =>
      rcases List.forall_mem_cons.mp hEach with
        ⟨hFirst, hRest⟩
      rw [Expr.allNodes]
      exact List.forall_mem_append.mpr ⟨hFirst, ih hRest⟩

namespace Expr

/- Minus signs. -/
def IsNegation : Expr → Prop
| .negate _ _ _ => True
| _ => False

/- Exclamation marks. -/
def IsInversion : Expr → Prop
| .not _ _ => True
| _ => False

end Expr

/- The common type of elements, or that of a string. -/
def Ty.common? : List Ty → Option Ty
| [] => some .char
| t :: rest => rest.foldlM Ty.unify t

/- Parts are taken of arrays and records that have them. -/
def Place.Obeys : Place → Prop
| .var _ => True
| .element parent index t =>
    index.ty.IsIntegral ∧ parent.ty.element? = some t
| .member parent position name t =>
    ∃ serial record members,
      parent.ty = .record serial record members ∧
        members[position]? = some (name, t)

/- What a node says of itself and of its direct parts. -/
def Expr.Obeys (g : Globals) : Expr → Prop
| .int value t _ =>
    (t = .int ∧ -2147483648 ≤ value ∧ value ≤ 2147483647) ∨
      (t = .char ∧ -128 ≤ value ∧ value ≤ 127)
| .float _ _ => True
| .boolean _ _ => True
| .zero _ _ => True
| .read _ _ => True
| .array elements t _ =>
    (∀ e ∈ elements, e.isConstant = true) ∧
      ∃ u, Ty.common? (elements.map (·.ty)) = some u ∧
        t = .array elements.length u
| .arithmetic _ left right t _ =>
    left.ty.promote right.ty = some t
| .negate operand t _ =>
    operand.ty.IsNumeric ∧ operand.ty = t ∧
      ¬ operand.IsNegation
| .call callee prototype args params t _ =>
    args.length = params.length ∧
      (∀ pair ∈ args.zip params,
        pair.1.ty.ConvertsTo pair.2) ∧
      ∃ p, g.prototypes[prototype]? = some p ∧
        p.name = callee ∧ p.paramTypes = params ∧
          p.returnType = t
| .compare op left right _ =>
    (∃ t, left.ty.promote right.ty = some t) ∨
      (op.IsEquality ∧ left.ty = .bool ∧ right.ty = .bool)
| .and left right _ => left.IsCondition ∧ right.IsCondition
| .or left right _ => left.IsCondition ∧ right.IsCondition
| .not operand _ =>
    operand.IsCondition ∧ ¬ operand.IsInversion

/- What any node says. -/
def Node.Obeys (g : Globals) : Node → Prop
| .place part => part.Obeys
| .expr e => e.Obeys g

namespace Expr

variable {g g' : Globals}

/- More headers change nothing for a call. -/
theorem Obeys.grow
    {e : Expr}
    (hObeys : e.Obeys g)
    (hGrows : g.Grows g') :
    e.Obeys g' := by
  cases e with
  | call callee prototype args params t line =>
      rcases hObeys with
        ⟨hLength, hConverts, p, hAt, hName, hParams,
          hReturns⟩
      rcases hGrows prototype p hAt with
        ⟨p', hAt', hName', hParams'⟩
      refine ⟨hLength, hConverts, p', hAt',
        hName'.trans hName, hParams'.trans hParams, ?_⟩
      rw [← hReturns, Prototype.returnType, hName']
      rfl
  | _ => exact hObeys

end Expr

theorem Node.Obeys.grow
    {g g' : Globals}
    {node : Node}
    (hObeys : node.Obeys g)
    (hGrows : g.Grows g') :
    node.Obeys g' := by
  cases node with
  | place part => exact hObeys
  | expr e => exact Expr.Obeys.grow hObeys hGrows

------------------------------------------------------------
-- Checked Construction
------------------------------------------------------------

namespace Expr

variable {g : Globals}

/- All nodes of an expression keep their rule. -/
def Sound
    (g : Globals)
    (e : Expr) : Prop :=
  ∀ node ∈ e.nodes, node.Obeys g

theorem Sound.obeys
    {e : Expr}
    (hSound : e.Sound g) :
    e.Obeys g := by
  have hMem : .expr e ∈ e.nodes := by
    cases e <;> exact List.mem_cons_self
  exact hSound (.expr e) hMem

theorem ofInteger_sound
    {value : Int}
    {line : Nat}
    {e : Expr}
    (hOk : ofInteger value line = .ok e) :
    e.Sound g := by
  rcases ofInteger_eq_ok hOk with ⟨rfl, hRange⟩
  rw [Sound, nodes]
  exact List.forall_mem_singleton.mpr (.inl ⟨rfl, hRange⟩)

/- Characters have a character as their common type. -/
theorem common?_of_chars
    {ts : List Ty}
    (hChars : ∀ t ∈ ts, t = .char) :
    Ty.common? ts = some .char := by
  have hFold : ∀ rest : List Ty, (∀ t ∈ rest, t = .char) →
      rest.foldlM Ty.unify .char = some .char := by
    intro rest hRest
    induction rest with
    | nil => rfl
    | cons t rest ih =>
        rcases List.forall_mem_cons.mp hRest with
          ⟨rfl, hOthers⟩
        exact ih hOthers
  cases ts with
  | nil => rfl
  | cons t rest =>
      rcases List.forall_mem_cons.mp hChars with
        ⟨rfl, hRest⟩
      exact hFold rest hRest

theorem ofString_sound
    (value : String)
    (line : Nat) :
    (ofString value line).Sound g := by
  have hByte :
      ∀ e ∈ value.toUTF8.toList.map
          (fun b => Expr.int (Int.bmod b.toNat 256)
            .char line),
        e.ty = .char ∧ e.isConstant = true ∧ e.Sound g := by
    intro e hMem
    rcases List.mem_map.mp hMem with ⟨b, -, rfl⟩
    have hLow := @Int.le_bmod b.toNat 256 (by decide)
    have hHigh := @Int.bmod_lt b.toNat 256 (by decide)
    refine ⟨rfl, rfl, ?_⟩
    rw [Sound, nodes]
    exact List.forall_mem_singleton.mpr
      (.inr ⟨rfl, by omega, by omega⟩)
  unfold ofString
  rw [Sound, nodes]
  refine List.forall_mem_cons.mpr ⟨⟨?_, .char, ?_, rfl⟩, ?_⟩
  · exact fun e hMem => (hByte e hMem).2.1
  · apply common?_of_chars
    exact List.forall_mem_map.mpr fun e hMem =>
      (hByte e hMem).1
  · exact forall_allNodes fun e hMem => (hByte e hMem).2.2

/- The common type found step by step is the common type. -/
theorem foldlM_of_commonType
    {t u : Ty}
    {rest : List Expr}
    (hOk : commonType t rest = .ok u) :
    (rest.map (·.ty)).foldlM Ty.unify t = some u := by
  fun_induction commonType t rest with
  | case1 t =>
      cases hOk
      rfl
  | case2 t e rest v hUnify ih =>
      rw [List.map_cons, List.foldlM_cons, hUnify]
      exact ih hOk
  | case3 t e rest hUnify => cases hOk

theorem ofElements_sound
    {first e : Expr}
    {rest : List Expr}
    {line : Nat}
    (hElements : ∀ element ∈ first :: rest, element.Sound g)
    (hConstant : ∀ element ∈ first :: rest,
      element.isConstant = true)
    (hOk : ofElements first rest line = .ok e) :
    e.Sound g := by
  rcases Step.except_bind_eq_ok.mp hOk with
    ⟨t, hCommon, hOk⟩
  cases hOk
  rw [Sound, nodes]
  refine List.forall_mem_cons.mpr
    ⟨⟨hConstant, t, ?_, rfl⟩, ?_⟩
  · exact foldlM_of_commonType hCommon
  · exact forall_allNodes hElements

theorem joinOr_sound
    {left right e : Expr}
    {line : Nat}
    (hLeft : left.Sound g)
    (hRight : right.Sound g)
    (hOk : joinOr left right line = .ok e) :
    e.Sound g := by
  rcases conditions_of_join hOk with ⟨hBool, hBool', rfl⟩
  rw [Sound, nodes]
  refine List.forall_mem_cons.mpr
    ⟨⟨.inr hBool, .inr hBool'⟩, ?_⟩
  exact List.forall_mem_append.mpr ⟨hLeft, hRight⟩

theorem joinAnd_sound
    {left right e : Expr}
    {line : Nat}
    (hLeft : left.Sound g)
    (hRight : right.Sound g)
    (hOk : joinAnd left right line = .ok e) :
    e.Sound g := by
  rcases conditions_of_join hOk with ⟨hBool, hBool', rfl⟩
  rw [Sound, nodes]
  refine List.forall_mem_cons.mpr
    ⟨⟨.inr hBool, .inr hBool'⟩, ?_⟩
  exact List.forall_mem_append.mpr ⟨hLeft, hRight⟩

theorem joinCompare_sound
    {op : Comparison}
    {left right e : Expr}
    {line : Nat}
    (hLeft : left.Sound g)
    (hRight : right.Sound g)
    (hOk : joinCompare op left right line = .ok e) :
    e.Sound g := by
  rcases joinCompare_eq_ok hOk with ⟨rfl, hComparable⟩
  rw [Sound, nodes]
  refine List.forall_mem_cons.mpr ⟨?_, ?_⟩
  · rcases hComparable with hBools | hPromote
    · exact .inr hBools
    · exact .inl (Option.isSome_iff_exists.mp hPromote)
  · exact List.forall_mem_append.mpr ⟨hLeft, hRight⟩

theorem joinArithmetic_sound
    {op : Arithmetic}
    {left right e : Expr}
    {line : Nat}
    (hLeft : left.Sound g)
    (hRight : right.Sound g)
    (hOk : joinArithmetic op left right line = .ok e) :
    e.Sound g := by
  rcases joinArithmetic_eq_ok hOk with ⟨t, hPromote, rfl⟩
  rw [Sound, nodes]
  refine List.forall_mem_cons.mpr ⟨hPromote, ?_⟩
  exact List.forall_mem_append.mpr ⟨hLeft, hRight⟩

/-
  Two minus signs cancel, so what is left below one of them
  is none, whether it is kept or taken away.
-/
theorem ofNegation_sound
    {operand e : Expr}
    {line : Nat}
    (hOperand : operand.Sound g)
    (hOk : ofNegation operand line = .ok e) :
    e.Sound g := by
  rcases ofNegation_eq_ok hOk with
    ⟨t, line', rfl⟩ | ⟨hOther, hNumeric, rfl⟩
  · rw [Sound, nodes] at hOperand
    exact (List.forall_mem_cons.mp hOperand).2
  · have hNegation : ¬ operand.IsNegation := by
      cases operand with
      | negate inner t line' =>
          exact (hOther inner t line' rfl).elim
      | _ => exact id
    rw [Sound, nodes]
    exact List.forall_mem_cons.mpr
      ⟨⟨hNumeric, rfl, hNegation⟩, hOperand⟩

theorem ofInversion_sound
    {operand e : Expr}
    {line : Nat}
    (hOperand : operand.Sound g)
    (hOk : ofInversion operand line = .ok e) :
    e.Sound g := by
  rcases ofInversion_eq_ok hOk with
    ⟨line', rfl⟩ | ⟨hOther, hBool, rfl⟩
  · rw [Sound, nodes] at hOperand
    exact (List.forall_mem_cons.mp hOperand).2
  · have hInversion : ¬ operand.IsInversion := by
      cases operand with
      | not inner line' =>
          exact (hOther inner line' rfl).elim
      | _ => exact id
    rw [Sound, nodes]
    exact List.forall_mem_cons.mpr
      ⟨⟨.inr hBool, hInversion⟩, hOperand⟩

theorem ofCall_sound
    {callee : Prototype}
    {args : List Expr}
    {line : Nat}
    {e : Expr}
    (hAt : g.prototypes[callee.id]? = some callee)
    (hArgs : ∀ arg ∈ args, arg.Sound g)
    (hOk : ofCall callee args line = .ok e) :
    e.Sound g := by
  rcases ofCall_eq_ok hOk with ⟨hCount, hFit, rfl⟩
  rw [Sound, nodes]
  refine List.forall_mem_cons.mpr
    ⟨?_, forall_allNodes hArgs⟩
  exact ⟨hCount.symm, convertsTo_of_argumentsFit hFit,
    callee, hAt, rfl, rfl, rfl⟩

end Expr

mutual

/- All nodes of a place that is read keep their rule. -/
theorem Place.Read.obeys
    {σ : Scope}
    (hNumbered : σ.globals.Numbered) :
    ∀ {place : Place}, place.Read σ →
      ∀ node ∈ place.nodes, node.Obeys σ.globals
| _, .var hLookup => by
    rw [Place.nodes]
    exact List.forall_mem_singleton.mpr trivial
| _, .element hParent hIndex hIntegral hArray => by
    rw [Place.nodes]
    refine List.forall_mem_cons.mpr ⟨⟨hIntegral, ?_⟩, ?_⟩
    · rw [hArray]
      rfl
    · exact List.forall_mem_append.mpr
        ⟨hParent.obeys hNumbered, hIndex.obeys hNumbered⟩
| _, .member hParent hRecord hFind => by
    rw [Place.nodes]
    refine List.forall_mem_cons.mpr
      ⟨?_, hParent.obeys hNumbered⟩
    exact ⟨_, _, _, hRecord,
      Expr.getElem?_of_findMember? hFind⟩

/- All nodes of an expression keep their rule. -/
theorem Expr.Read.obeys
    {σ : Scope}
    (hNumbered : σ.globals.Numbered) :
    ∀ {e : Expr}, e.Read σ → e.Sound σ.globals
| _, .integer hOk => Expr.ofInteger_sound hOk
| _, .float value line => by
    rw [Expr.Sound, Expr.nodes]
    exact List.forall_mem_singleton.mpr trivial
| _, .boolean value line => by
    rw [Expr.Sound, Expr.nodes]
    exact List.forall_mem_singleton.mpr trivial
| _, .string value line => Expr.ofString_sound value line
| _, .elements hElements hConstant hOk =>
    Expr.ofElements_sound
      (fun element hMem => (hElements element hMem).obeys
        hNumbered)
      hConstant hOk
| _, .read hPlace line => by
    rw [Expr.Sound, Expr.nodes]
    exact List.forall_mem_cons.mpr
      ⟨trivial, hPlace.obeys hNumbered⟩
| _, .call hKnown hArgs hOk =>
    Expr.ofCall_sound (hNumbered.getElem?_id hKnown)
      (fun arg hMem => (hArgs arg hMem).obeys hNumbered) hOk
| _, .negation hOperand hOk =>
    Expr.ofNegation_sound (hOperand.obeys hNumbered) hOk
| _, .inversion hOperand hOk =>
    Expr.ofInversion_sound (hOperand.obeys hNumbered) hOk
| _, .arithmetic hLeft hRight hOk =>
    Expr.joinArithmetic_sound (hLeft.obeys hNumbered)
      (hRight.obeys hNumbered) hOk
| _, .compare hLeft hRight hOk =>
    Expr.joinCompare_sound (hLeft.obeys hNumbered)
      (hRight.obeys hNumbered) hOk
| _, .and hLeft hRight hOk =>
    Expr.joinAnd_sound (hLeft.obeys hNumbered)
      (hRight.obeys hNumbered) hOk
| _, .or hLeft hRight hOk =>
    Expr.joinOr_sound (hLeft.obeys hNumbered)
      (hRight.obeys hNumbered) hOk

end

end Bracketry
