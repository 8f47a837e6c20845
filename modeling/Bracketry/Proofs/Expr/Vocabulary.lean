import Bracketry.Proofs.Code.Vocabulary
import Bracketry.Proofs.Expr.Nodes
import Bracketry.Proofs.Judgement

/-
  This file shows that expressions are written in what the
  program has.

  The nodes of an expression say what types there are, and a
  variable has a type that is known and a plain name.  An
  operand has the type that it is asked for, so a call hands
  over arguments of the types of the parameters.

  Main declarations:
    * `Value.ProperAt` and `Build.vocabulary`
    * `Place.known` and `Build.vocabulary_covers`
-/

namespace Bracketry

variable {g : Globals}

/- A variable has a known type and a plain slot. -/
structure Identifier.Proper
    (g : Globals)
    (x : Identifier) : Prop where
  name : Text.Plain x.storage
  known : x.ty.Known g.records

/- A node keeps its rule, and a variable is proper. -/
structure Node.Proper
    (g : Globals)
    (node : Node) : Prop where
  obeys : node.Obeys g
  var : ∀ x, node = .place (.var x) → x.Proper g

theorem Ty.Formed.known
    {L : Nat → Prop}
    {t : Ty}
    (hFormed : t.Formed g L) :
    t.Known g.records := by
  induction hFormed with
  | primitive kind => trivial
  | record hKnown => exact ⟨_, hKnown, rfl⟩
  | array _ _ _ ih => exact ih

/- Members of known records have known types. -/
theorem Globals.Formed.known_member
    {serial position : Nat}
    {name record : String}
    {members : List (String × Ty)}
    {t : Ty}
    (hFormed : g.Formed)
    (hKnown : (Ty.record serial record members).Known
      g.records)
    (hMember : members[position]? = some (name, t)) :
    t.Known g.records := by
  rcases hKnown with ⟨r, hMem, hType⟩
  cases hType
  exact (hFormed.members r hMem _
    (List.mem_of_getElem? hMember)).known

/- Parts of what is known are known. -/
theorem Place.known
    (hFormed : g.Formed) :
    ∀ place : Place, (∀ node ∈ place.nodes, node.Proper g) →
      place.ty.Known g.records
| .var x, hNodes => by
    have hVar := hNodes (.place (.var x)) (by simp)
    exact (hVar.var x rfl).known
| .element parent index t, hNodes => by
    rw [Place.nodes, List.forall_mem_cons,
      List.forall_mem_append] at hNodes
    rcases hNodes with ⟨hPart, hParent, -⟩
    exact (Place.known hFormed parent hParent).element
      hPart.obeys.2
| .member parent position name t, hNodes => by
    rw [Place.nodes, List.forall_mem_cons] at hNodes
    rcases hNodes with ⟨hPart, hParent⟩
    rcases hPart.obeys with
      ⟨serial, record, members, hType, hMember⟩
    have hKnown := Place.known hFormed parent hParent
    rw [hType] at hKnown
    exact hFormed.known_member hKnown hMember

/- An operand, proper if its type is known. -/
structure Value.ProperAt
    (g : Globals)
    (t : Ty)
    (v : Value) : Prop where
  ty_eq : v.ty = t
  proper : t.Known g.records → v.Proper g

theorem Ty.IsFloating.isNumeric
    {t : Ty}
    (hFloating : t.IsFloating) :
    t.IsNumeric := by
  unfold IsFloating at hFloating
  split at hFloating
  · trivial
  · exact hFloating.elim

/- Plain operands are proper at their type. -/
theorem Value.properAt
    (v : Value)
    (hTypes : v.types = [v.ty])
    (hNames : v.names = []) :
    v.ProperAt g v.ty :=
  ⟨rfl, .of_ty hTypes hNames⟩

/- Only numbers are converted. -/
theorem Conversion.isNumeric_of_between?
    {source target : Ty}
    {how : Conversion}
    (hBetween : between? source target = some how) :
    source.IsNumeric := by
  unfold between? at hBetween
  split at hBetween
  · rename_i hTypes
    exact hTypes.2.isNumeric
  · split at hBetween
    · rename_i hTypes
      exact hTypes.2.isNumeric
    · split at hBetween
      · rename_i hTypes
        exact hTypes.2.isNumeric
      · cases hBetween

/- As many operands as types are of these types. -/
theorem Value.map_ty_of_properAt
    {pairs : List (Expr × Ty)}
    {values : List Value}
    (hValues :
      List.Forall₂ (fun pair v => v.ProperAt g pair.2) pairs
        values) :
    values.map Value.ty = pairs.map Prod.snd := by
  induction hValues with
  | nil => rfl
  | cons hFirst _ ih =>
      rw [List.map_cons, List.map_cons, hFirst.ty_eq, ih]

------------------------------------------------------------
-- Vocabulary
------------------------------------------------------------

open Build (Judgement Says)

/- Code that is written in what the program has. -/
def Build.vocabulary (g : Globals) : Judgement where
  Known := Unit
  Grows := fun _ _ => True
  MayFail := True
  Holds := fun _ Q x =>
    Says (Instruction.Proper g) (Q · ()) x
  Is := fun _ t v => v.ProperAt g t
  Legal := fun _ i => i.Proper g
  Defines := fun _ _ i => ∀ n, (i n).Proper g
  inside := fun _ _ => ()
  Breaks := fun _ => True
  trans := fun _ _ => trivial
  weaken := fun _ => id
  int := fun n _ => Value.properAt (.int n _) rfl rfl
  float := fun x => Value.properAt (.float x .float) rfl rfl
  bool := fun x => Value.properAt (.bool x .bool) rfl rfl
  pure := fun hResult => .pure (hResult () trivial)
  throw := fun _ => .throw
  bind := fun hFirst hSecond => hFirst.bind fun a =>
    hSecond a () trivial
  getBind := .getBind
  label := Says.label
  place := .place
  jump := .jump
  branch := fun _ _ hCondition =>
    .branch fun _ _ => hCondition.proper trivial
  append := .append
  define := fun hProper => Says.define hProper fun n =>
      ⟨rfl, .temporary n⟩
  merge := fun _ _ _ => trivial
  insideLoop := .insideLoop _
  breaks := fun _ _ => trivial
  breaking := fun _ => id
  leave := by
    intro _ line _
    refine .getBind fun b => ?_
    split
    · exact .jump _
    · exact .throw _

/- A proper variable has a proper slot. -/
theorem Identifier.Proper.slot
    {x : Identifier}
    (hProper : x.Proper g) :
    Says (Instruction.Proper g)
      (fun _ =>
        (Value.named x.storage (.pointer x.ty)).ProperAt g
        (.pointer x.ty))
      (Build.allocate x.storage x.ty) := by
  have hAllocate : Build.Utters (Instruction.Proper g)
      (Build.allocate x.storage x.ty) :=
    .allocate ⟨hProper.name, hProper.known⟩
  exact fun b a b' hOk => ⟨(hAllocate b a b' hOk).1, rfl,
    fun hKnown => .named hProper.name hKnown⟩

theorem Expr.forall_of_allNodes
    {P : Node → Prop}
    {es : List Expr}
    (hNodes : ∀ node ∈ Expr.allNodes es, P node) :
    ∀ e ∈ es, ∀ node ∈ e.nodes, P node := by
  induction es with
  | nil => exact List.forall_mem_nil _
  | cons e rest ih =>
      rw [Expr.allNodes, List.forall_mem_append] at hNodes
      exact List.forall_mem_cons.mpr ⟨hNodes.1, ih hNodes.2⟩

/- Each node is written in what the program has. -/
theorem Build.vocabulary_covers
    (hFormed : g.Formed) :
    (vocabulary g).Covers
      (fun place => ∀ node ∈ place.nodes, node.Proper g)
      (fun e => ∀ node ∈ e.nodes, node.Proper g)
      (fun _ t => t.Known g.records) where
  slot := by
    intro x hNodes _
    have hNode := hNodes (.place (.var x)) (by simp)
    exact (hNode.var x rfl).slot
  element := by
    intro parent index t hNodes
    rw [Place.nodes, List.forall_mem_cons,
      List.forall_mem_append] at hNodes
    rcases hNodes with ⟨-, hParent, hIndex⟩
    have hWhole := Place.known hFormed parent hParent
    exact ⟨hParent, hIndex, trivial,
      fun hBase hPosition _ =>
        ⟨hWhole, hBase.proper hWhole,
          hPosition.proper trivial⟩⟩
  member := by
    intro parent position name t hNodes
    rw [Place.nodes, List.forall_mem_cons] at hNodes
    have hWhole := Place.known hFormed parent hNodes.2
    exact ⟨hNodes.2, fun hBase _ =>
      ⟨hWhole, hBase.proper hWhole, .of_ty rfl rfl trivial⟩⟩
  kept := by
    intro e u _ v _ _ _ hValue hSame
    have hType : e.ty = u := hValue.ty_eq.symm.trans hSame
    exact ⟨hSame,
      fun hKnown => hValue.proper (hType ▸ hKnown)⟩
  converted := by
    intro e u _ v how _ _ hTarget hValue _ hHow _
    have hNumeric := Conversion.isNumeric_of_between? hHow
    exact ⟨hTarget,
      hValue.proper
        (hValue.ty_eq ▸ Ty.known_of_isNumeric hNumeric)⟩
  refused := fun _ _ _ _ _ _ => trivial
  int := fun _ =>
    ⟨fun _ => Value.properAt (.int _ _) rfl rfl,
      fun _ _ => .inl trivial⟩
  float := fun _ _ _ => .inl trivial
  zero := fun _ _ => Value.properAt (.zero _) rfl rfl
  array := by
    intro elements t line hNodes
    rw [Expr.nodes, List.forall_mem_cons] at hNodes
    refine ⟨Expr.forall_of_allNodes hNodes.2,
      fun u hKnown =>
        ⟨fun _ => trivial, fun w hElement => ?_⟩⟩
    have hPart := hKnown.element hElement
    exact ⟨fun _ _ => hPart, fun _ values _ hValues =>
      ⟨rfl, fun _ =>
        .array (fun v hMem => (hValues v hMem).proper hPart)
          hKnown⟩⟩
  read := by
    intro place line hNodes
    rw [Expr.nodes, List.forall_mem_cons] at hNodes
    have hKnown := Place.known hFormed place hNodes.2
    exact ⟨hNodes.2,
      fun hAddress _ => ⟨hKnown, hAddress.proper hKnown⟩⟩
  arithmetic := by
    intro op left right t line hNodes
    rw [Expr.nodes, List.forall_mem_cons,
      List.forall_mem_append] at hNodes
    rcases hNodes with ⟨hNode, hLeft, hRight⟩
    have hPromote : left.ty.promote right.ty = some t :=
      hNode.obeys
    have hKnown : t.Known g.records :=
      Ty.known_of_isNumeric
        (Ty.promote_eq_some hPromote).2.2
    exact ⟨hLeft, hRight, hKnown, hKnown,
      fun hFirst hSecond _ =>
        ⟨hKnown, hFirst.proper hKnown,
          hSecond.proper hKnown⟩⟩
  negate := by
    intro operand t line hNodes
    rw [Expr.nodes, List.forall_mem_cons] at hNodes
    rcases hNodes with ⟨hNode, hOperand⟩
    rcases hNode.obeys with ⟨hNumeric, rfl, -⟩
    have hKnown : operand.ty.Known g.records :=
      Ty.known_of_isNumeric hNumeric
    exact ⟨hOperand, hKnown, fun hValue _ =>
      ⟨hKnown, hValue.proper hKnown⟩⟩
  call := by
    intro callee prototype args params t line hNodes
    rw [Expr.nodes, List.forall_mem_cons] at hNodes
    rcases hNodes with ⟨hNode, hArgs⟩
    rcases hNode.obeys with
      ⟨hLength, -, p, hAt, hName, hTypes, hReturns⟩
    have hHeader := List.mem_of_getElem? hAt
    have hKnown : t.Known g.records :=
      hReturns ▸ (hFormed.returns p hHeader).known
    have hParams : ∀ param ∈ params,
        param.Known g.records := by
      rw [← hTypes, Prototype.paramTypes,
        List.forall_mem_map]
      exact fun x hMem =>
        (hFormed.params p hHeader x hMem).1.known
    have hAsks : ∀ pair ∈ args.zip params,
      pair.2.Known g.records :=
      fun pair hMem =>
        hParams pair.2 (List.of_mem_zip hMem).2
    refine ⟨Expr.forall_of_allNodes hArgs, hAsks,
      fun {_ values} hValues => ?_⟩
    -- the call hands over what the header asks for
    have hCall : ∀ dest,
        (Instruction.call dest t callee.storage
          values).Proper g := by
      refine fun dest =>
        ⟨hKnown, fun v hMem => ?_, p, hHeader, ?_, hReturns,
        ?_⟩
      · rcases Judgement.is_of_mem hValues v hMem with
          ⟨pair, hPair, hIs⟩
        exact hIs.proper (hAsks pair hPair)
      · rw [hName]
      · rw [hTypes, Value.map_ty_of_properAt hValues,
          List.map_snd_zip (Nat.le_of_eq hLength.symm)]
    exact ⟨fun _ =>
      ⟨hCall none,
        fun _ => Value.properAt (.void t) rfl rfl⟩,
      fun _ dest => hCall (some dest)⟩
  compare := by
    intro op left right line hNodes
    rw [Expr.nodes, List.forall_mem_cons,
      List.forall_mem_append] at hNodes
    rcases hNodes with ⟨-, hLeft, hRight⟩
    refine ⟨hLeft, hRight, fun _ _ => trivial,
      fun t hCommon => ?_⟩
    -- operands are compared as booleans or as numbers
    have hKnown : t.Known g.records := by
      unfold Lowering.comparedAs at hCommon
      split at hCommon
      · cases hCommon
        trivial
      · split at hCommon
        · rename_i hPromote
          cases hCommon
          exact Ty.known_of_isNumeric
            (Ty.promote_eq_some hPromote).2.2
        · cases hCommon
    exact ⟨hKnown, hKnown, fun hFirst hSecond _ =>
      ⟨hKnown, hFirst.proper hKnown, hSecond.proper hKnown⟩⟩
  and := by
    intro left right line hNodes
    rw [Expr.nodes, List.forall_mem_cons,
      List.forall_mem_append] at hNodes
    exact ⟨hNodes.2.1, hNodes.2.2, trivial, trivial⟩
  or := by
    intro left right line hNodes
    rw [Expr.nodes, List.forall_mem_cons,
      List.forall_mem_append] at hNodes
    exact ⟨hNodes.2.1, hNodes.2.2, trivial, trivial⟩
  not := by
    intro operand line hNodes
    rw [Expr.nodes, List.forall_mem_cons] at hNodes
    exact ⟨hNodes.2, trivial⟩

end Bracketry
