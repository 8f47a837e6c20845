import Bracketry.Proofs.Expr.Precedence

/-
  This file shows that reading an expression undoes writing
  it.

  A bracket opens a call, an array literal, an index or the
  name of a member.  Which of them it is follows from what
  is written in front of it and behind it, so each is shown
  to be read back as what it was written for.

  Main declarations:
    * `Place.Reached` and `Expr.ReadBy`
    * `Expr.returns` and `Expr.parse_render`
-/

namespace Bracketry

namespace Expr

variable {σ : Scope} {e : Expr}

/- A token that makes a primary expression by itself. -/
theorem readAt_single
    {t : Token}
    {node : Nat → Parse Expr}
    (hPrimary :
      ∀ expression s, s.lookahead = t →
        primary expression s =
          (Parse.advance >>= fun _ => node s.line) s)
    (hNode : ∀ line s, ∃ e', node line s = .ok e' s ∧
      e'.unlined = e.unlined) :
    ReadAt σ 6 [t] e := by
  apply readAt_of_primary (List.cons_ne_nil t [])
  intro depth s s' _ hAhead _ _
  rcases hAhead.advance with ⟨s₁, hAdvance, -, hEnd⟩
  cases hEnd.eq_of_nil
  rcases hNode s.line s' with ⟨e', hOk, hSame⟩
  refine ⟨e', ?_, hSame⟩
  rw [hPrimary _ s hAhead.lookahead_eq,
    Step.bind_of_ok hAdvance, hOk]

/- A minus sign and the number that it belongs to. -/
theorem readAt_negative
    {t : Token}
    {node : Nat → Parse Expr}
    (hUnary :
      ∀ p s s₁, s.lookahead = .symbol .minus →
        Parse.advance s = .ok () s₁ → s.left = s₁.left + 1 →
          s₁.lookahead = t →
            unary p s =
              (Parse.advance >>= fun _ => node s.line) s₁)
    (hNode : ∀ line s, ∃ e', node line s = .ok e' s ∧
      e'.unlined = e.unlined) :
    ReadAt σ 6 [.symbol .minus, t] e := by
  intro depth s s' _ hAhead _ _
  rcases hAhead.advance with ⟨s₁, hAdvance, hLeft, hMore⟩
  rcases hMore.advance with ⟨s₂, hAdvance₂, -, hEnd⟩
  cases hEnd.eq_of_nil
  rcases hNode s.line s' with ⟨e', hOk, hSame⟩
  refine ⟨e', ?_, hSame⟩
  rw [climb_six, hUnary _ s s₁ hAhead.lookahead_eq hAdvance
    hLeft hMore.lookahead_eq, Step.bind_of_ok hAdvance₂,
      hOk]

theorem readAt_int
    {value : Int}
    (line : Nat)
    (hLow : -2147483648 ≤ value)
    (hHigh : value ≤ 2147483647) :
    ReadAt σ 6 (Expr.int value .int line).render
      (.int value .int line) := by
  have hNode :
      ∀ n (s : Parser),
        ∃ e', Parse.ofExcept (ofInteger value n) s =
          .ok e' s ∧ e'.unlined =
            (Expr.int value .int line).unlined := by
    intro n s
    rw [ofInteger, if_pos ⟨hLow, hHigh⟩]
    exact ⟨_, rfl, rfl⟩
  rw [render]
  split
  · rename_i hNegative
    have hValue : -(value.natAbs : Int) = value := by omega
    refine readAt_negative ?_ hNode
    intro p s s₁ hMinus hAdvance hLeft hNumber
    rw [unary, Step.get_bind, hLeft, unaryUpTo,
      Step.get_bind, hMinus]
    change (Parse.advance >>= _) s = _
    rw [Step.bind_of_ok hAdvance, Step.get_bind, hNumber]
    change (Parse.advance >>= fun _ =>
      Parse.ofExcept
        (ofInteger (-(value.natAbs : Int)) s.line)) s₁ = _
    rw [hValue]
  · rename_i hPositive
    have hValue : (value.natAbs : Int) = value := by omega
    refine readAt_single ?_ hNode
    intro expression s hNumber
    rw [primary, Step.get_bind, hNumber]
    change (Parse.advance >>= fun _ =>
      Parse.ofExcept
        (ofInteger (value.natAbs : Int) s.line)) s = _
    rw [hValue]

theorem readAt_float
    (value : Double)
    (line : Nat) :
    ReadAt σ 6 (Expr.float value line).render
      (.float value line) := by
  rw [render]
  split
  · have hSame : value.neg.neg = value := by
      rw [Double.neg, Double.neg, UInt64.xor_assoc,
        UInt64.xor_self, UInt64.xor_zero]
    refine readAt_negative ?_
      fun n s =>
        ⟨.float value.neg.neg n, rfl, by rw [hSame]; rfl⟩
    intro p s s₁ hMinus hAdvance hLeft hNumber
    rw [unary, Step.get_bind, hLeft, unaryUpTo,
      Step.get_bind, hMinus]
    change (Parse.advance >>= _) s = _
    rw [Step.bind_of_ok hAdvance, Step.get_bind, hNumber]
    rfl
  · refine readAt_single ?_ fun n s =>
      ⟨.float value n, rfl, rfl⟩
    intro expression s hNumber
    rw [primary, Step.get_bind, hNumber]
    rfl

theorem readAt_boolean
    (value : Bool)
    (line : Nat) :
    ReadAt σ 6 [.boolean value] (.boolean value line) := by
  refine readAt_single ?_ fun n s =>
    ⟨.boolean value n, rfl, rfl⟩
  intro expression s hBoolean
  rw [primary, Step.get_bind, hBoolean]
  rfl

theorem readAt_string
    {text : String}
    (hText : e.unlined = ofString text 0) :
    ReadAt σ 6 [.string text] e := by
  refine readAt_single ?_
    fun n s =>
      ⟨ofString text n, rfl,
        by rw [unlined_ofString, hText]⟩
  intro expression s hString
  rw [primary, Step.get_bind, hString]
  rfl

end Expr

------------------------------------------------------------
-- Places
------------------------------------------------------------

/- A member is found by its name, if it is the only one. -/
theorem findMember?_of_nodup
    {members : List (String × Ty)}
    {position : Nat}
    {name : String}
    {t : Ty}
    (hNodup : (members.map Prod.fst).Nodup)
    (hAt : members[position]? = some (name, t)) :
    findMember? members name = some (position, t) := by
  induction members generalizing position with
  | nil => cases hAt
  | cons first rest ih =>
      rw [List.map_cons, List.nodup_cons] at hNodup
      cases position with
      | zero =>
          cases hAt
          rw [findMember?, if_pos rfl]
      | succ position =>
          have hAt' : rest[position]? = some (name, t) :=
            hAt
          have hMem : name ∈ rest.map Prod.fst :=
            List.mem_map.mpr
              ⟨_, List.mem_of_getElem? hAt', rfl⟩
          have hOther : first.1 ≠ name :=
            fun hEq => hNodup.1 (hEq ▸ hMem)
          rw [findMember?, if_neg hOther, ih hNodup.2 hAt']
          rfl

namespace Place

/-
  Behind the variable, the brackets of a place are read one
  by one, and reading goes on behind the last.
-/
def Reached (σ : Scope) (place : Place) : Prop :=
  ∀ depth s s', place.render.length ≤ depth →
    s.Ahead place.render s' → s'.scope = σ →
      ∃ s₁ place' turns, Parse.advance s = .ok () s₁ ∧
        s'.left ≤ turns ∧ place'.unlined = place.unlined ∧
        Expr.accessUpTo (Expr.nested depth) s₁.left
          (.var place.root) s₁ =
          Expr.accessUpTo (Expr.nested depth) turns
            place' s'

variable {σ : Scope} {parent : Place}

theorem reached_var
    (x : Identifier) :
    (Place.var x).Reached σ := by
  intro depth s s' _ hAhead _
  rcases hAhead.advance with ⟨s₁, hAdvance, -, hEnd⟩
  cases hEnd.eq_of_nil
  exact ⟨s', .var x, s'.left, hAdvance, Nat.le_refl _,
    rfl, rfl⟩

theorem Reached.element
    {index : Expr}
    {t : Ty}
    (hParent : parent.Reached σ)
    (hIndex : Expr.ReadAt σ 0 index.render index)
    (hIntegral : index.ty.IsIntegral)
    (hElement : parent.ty.element? = some t) :
    (Place.element parent index t).Reached σ := by
  intro depth s s' hDepth hAhead hScope
  rw [render, List.length_append, List.length_cons,
    List.length_append] at hDepth
  rcases hAhead.append with ⟨s₁, hFront, hBracket⟩
  rcases hBracket.advance with ⟨s₂, hOpen, hCount, hInner⟩
  rcases hInner.append with ⟨s₃, hMiddle, hClosing⟩
  rcases hClosing.expect with ⟨s₄, hClose, hEnd⟩
  cases hEnd.eq_of_nil
  rcases hParent depth s s₁ (by omega) hFront
    (hBracket.scope_eq.trans hScope) with
    ⟨s₀, parent', turns, hAdvance, hTurns, hSame, hAccess⟩
  rcases hIndex.nested depth (by omega) hMiddle
    (hClosing.scope_eq.trans hScope)
    (hClosing.lookahead_eq ▸ by decide) with
      ⟨index', hOk, hSameIndex⟩
  have hTy : parent'.ty.element? = some t := by
    rw [ty_of_unlined hSame]
    exact hElement
  have hIntegral' : index'.ty.IsIntegral :=
    Expr.ty_of_unlined hSameIndex ▸ hIntegral
  have hLeftOver := hInner.left_eq
  cases turns with
  | zero => omega
  | succ turns =>
      refine ⟨s₀, .element parent' index' t, turns,
        hAdvance, by omega, by
          rw [unlined, unlined, hSame, hSameIndex], ?_⟩
      rw [root, hAccess, Expr.accessUpTo, Step.get_bind,
        if_pos hBracket.lookahead_eq]
      cases hArray : parent'.ty with
      | array n u =>
          rw [hArray] at hTy
          cases hTy
          change (Parse.advance >>= _) s₁ = _
          rw [Step.bind_of_ok hOpen, Step.bind_of_ok hOk,
            if_pos hIntegral']
          exact Step.bind_of_ok hClose
      | _ =>
          rw [hArray] at hTy
          cases hTy

theorem Reached.member
    {serial position : Nat}
    {record name : String}
    {members : List (String × Ty)}
    {t : Ty}
    (hParent : parent.Reached σ)
    (hRecord : parent.ty = .record serial record members)
    (hFind : findMember? members name =
      some (position, t)) :
    (Place.member parent position name t).Reached σ := by
  intro depth s s' hDepth hAhead hScope
  rw [render, List.length_append] at hDepth
  rcases hAhead.append with ⟨s₁, hFront, hBracket⟩
  rcases hBracket.advance with ⟨s₂, hOpen, hCount, hInner⟩
  rcases hInner.advance with ⟨s₃, hName, -, hClosing⟩
  rcases hClosing.expect with ⟨s₄, hClose, hEnd⟩
  cases hEnd.eq_of_nil
  rcases hParent depth s s₁ (by omega) hFront
    (hBracket.scope_eq.trans hScope) with
    ⟨s₀, parent', turns, hAdvance, hTurns, hSame, hAccess⟩
  have hIdentifier : Parse.identifier s₂ = .ok name s₃ := by
    rw [Parse.identifier, Step.get_bind,
      hInner.lookahead_eq]
    exact Step.bind_eq_ok.mpr ⟨(), s₃, hName, rfl⟩
  have hLeftOver := hInner.left_eq
  cases turns with
  | zero => omega
  | succ turns =>
      refine ⟨s₀, .member parent' position name t, turns,
        hAdvance, by omega, by rw [unlined, unlined, hSame],
          ?_⟩
      rw [root, hAccess, Expr.accessUpTo, Step.get_bind,
        if_pos hBracket.lookahead_eq, ty_of_unlined hSame,
          hRecord]
      change (Parse.advance >>= _) s₁ = _
      rw [Step.bind_of_ok hOpen,
        Step.bind_of_ok hIdentifier, hFind]
      change (Parse.expect _ >>= _) s₃ = _
      rw [Step.bind_of_ok hClose]

/- In front of no bracket the place is complete. -/
theorem Reached.readAt
    {place : Place}
    (line : Nat)
    (hReached : place.Reached σ)
    (hLookup :
      σ.lookup place.root.name = some (.var place.root)) :
    Expr.ReadAt σ 6 place.render (.read place line) := by
  rcases place.render_eq_cons with ⟨rest, hRender⟩
  refine Expr.readAt_of_primary
    (hRender ▸ List.cons_ne_nil _ _) ?_
  intro depth s s' hDepth hAhead hScope hHalts
  rcases hReached depth s s' hDepth hAhead hScope with
    ⟨s₁, place', turns, hAdvance, -, hSame, hAccess⟩
  refine ⟨.read place' s.line, ?_,
    by rw [Expr.unlined, Expr.unlined, hSame]⟩
  have hStop :
      Expr.accessUpTo (Expr.nested depth) turns place' s' =
        .ok place' s' := by
    cases turns with
    | zero => rfl
    | succ turns =>
        rw [Expr.accessUpTo, Step.get_bind, if_neg hHalts.1]
        rfl
  rw [hRender] at hAhead
  rw [Expr.primary, Step.get_bind, hAhead.lookahead_eq]
  change Expr.named _ place.root.name s.line s = _
  rw [Expr.named, Step.get_bind, hAhead.scope_eq,
    hScope, hLookup]
  change (Parse.advance >>= _) s = _
  rw [Step.bind_of_ok hAdvance]
  exact Step.bind_eq_ok.mpr
    ⟨place', s', hAccess.trans hStop, rfl⟩

end Place

namespace Expr

variable {σ : Scope} {e : Expr}
variable (line : Nat)

/- A step reads a tree in front of a halting token. -/
def ReadBy
    (σ : Scope)
    (item : Parse Expr)
    (e : Expr) : Prop :=
  ∀ s s', s.Ahead e.render s' → s'.scope = σ →
    Halts 0 s'.lookahead →
    ∃ e', item s = .ok e' s' ∧ e'.unlined = e.unlined

theorem Returns.readBy
    (hReturns : Returns σ e)
    {depth : Nat}
    (hDepth : e.render.length < depth) :
    ReadBy σ (nested depth) e := by
  intro s s' hAhead hScope hHalts
  exact hReturns.readAt_zero.nested depth hDepth hAhead
    hScope hHalts

variable {item : Parse Expr} {s s' : Parser}
variable {rest : List Expr}

theorem ReadBy.constant
    (hRead : ReadBy σ item e)
    (hConstant : e.isConstant = true) :
    ReadBy σ (Expr.constant item) e := by
  intro s s' hAhead hScope hHalts
  rcases hRead s s' hAhead hScope hHalts with
    ⟨e', hOk, hSame⟩
  refine ⟨e', ?_, hSame⟩
  have hConstant' : e'.isConstant = true := by
    rw [← isConstant_unlined, hSame, isConstant_unlined,
      hConstant]
  rw [Expr.constant, Step.bind_of_ok hOk, if_pos hConstant']
  rfl

/- Items end at a comma or at the closing bracket. -/
theorem halts_of_items
    {es : List Expr}
    (hAhead : s.Ahead (renderItems .comma es) s')
    (hClosing : s'.lookahead = .symbol .rightBracket) :
    Halts 0 s.lookahead := by
  cases es with
  | nil =>
      rw [hAhead.eq_of_nil, hClosing]
      decide
  | cons first rest =>
      rw [hAhead.lookahead_eq]
      decide

theorem moreItems_render
    {es : List Expr}
    {turns : Nat}
    (hItems : ∀ e ∈ es, ReadBy σ item e)
    (hTurns : es.length ≤ turns)
    (hAhead : s.Ahead (renderItems .comma es) s')
    (hScope : s'.scope = σ)
    (hClosing : s'.lookahead = .symbol .rightBracket) :
    ∃ es', Parse.moreItems item turns s = .ok es' s' ∧
      allUnlined es' = allUnlined es := by
  induction es generalizing turns s with
  | nil =>
      cases hAhead.eq_of_nil
      refine ⟨[], ?_, rfl⟩
      cases turns with
      | zero => rfl
      | succ turns =>
          have hOther : s'.lookahead ≠ .symbol .comma := by
            rw [hClosing]
            decide
          rw [Parse.moreItems,
            Step.bind_of_ok (Parse.accept_of_ne hOther)]
          rfl
  | cons e rest ih =>
      rcases List.forall_mem_cons.mp hItems with
        ⟨hFirst, hRest⟩
      cases turns with
      | zero => cases hTurns
      | succ turns =>
          rcases hAhead.accept with ⟨s₁, hComma, hMore⟩
          rcases hMore.append with ⟨s₂, hFront, hBack⟩
          rcases hFirst s₁ s₂ hFront
            (hBack.scope_eq.trans hScope)
            (halts_of_items hBack hClosing) with
              ⟨e', hOk, hSame⟩
          rcases ih hRest (Nat.le_of_succ_le_succ hTurns)
            hBack with
            ⟨rest', hOkRest, hSameRest⟩
          refine ⟨e' :: rest', ?_, ?_⟩
          · rw [Parse.moreItems, Step.bind_of_ok hComma,
              if_pos rfl, Step.bind_of_ok hOk,
                Step.bind_of_ok hOkRest]
            rfl
          · rw [allUnlined, allUnlined, hSame, hSameRest]

/- The first item and the others behind it. -/
theorem items_render
    {first : Expr}
    (hItems : ∀ e ∈ first :: rest, ReadBy σ item e)
    (hAhead :
      s.Ahead (first.render ++ renderItems .comma rest) s')
    (hScope : s'.scope = σ)
    (hClosing : s'.lookahead = .symbol .rightBracket) :
    ∃ first' rest' s₁, item s = .ok first' s₁ ∧
      Parse.moreItems item s₁.left s₁ = .ok rest' s' ∧
      allUnlined (first' :: rest') =
        allUnlined (first :: rest) := by
  rcases List.forall_mem_cons.mp hItems with ⟨hFirst, hRest⟩
  rcases hAhead.append with ⟨s₁, hFront, hBack⟩
  rcases hFirst s s₁ hFront (hBack.scope_eq.trans hScope)
    (halts_of_items hBack hClosing) with
      ⟨first', hOk, hSame⟩
  have hTurns : rest.length ≤ s₁.left := by
    have hLength := length_le_renderItems .comma rest
    have hLeft := hBack.left_eq
    omega
  rcases moreItems_render hRest hTurns hBack hScope
    hClosing with
    ⟨rest', hOkRest, hSameRest⟩
  refine ⟨first', rest', s₁, hOk, hOkRest, ?_⟩
  rw [allUnlined, allUnlined, hSame, hSameRest]

------------------------------------------------------------
-- Calls
------------------------------------------------------------

theorem callArguments_render
    {expression : Parse Expr}
    {args : List Expr}
    (hArgs : ∀ e ∈ args, ReadBy σ expression e)
    (hAhead : s.Ahead (renderItems .colon args) s')
    (hScope : s'.scope = σ)
    (hClosing : s'.lookahead = .symbol .rightBracket) :
    ∃ args', allUnlined args' = allUnlined args ∧
      ∀ callee line,
        callArguments expression callee line s =
          (Parse.expect (.symbol .rightBracket) >>= fun _ =>
            Parse.ofExcept (ofCall callee args' line))
              s' := by
  cases args with
  | nil =>
      cases hAhead.eq_of_nil
      have hOther : s.lookahead ≠ .symbol .colon := by
        rw [hClosing]
        decide
      refine ⟨[], rfl, fun callee line => ?_⟩
      rw [callArguments,
        Step.bind_of_ok (Parse.accept_of_ne hOther)]
      rfl
  | cons first rest =>
      rcases hAhead.accept with ⟨s₁, hColon, hMore⟩
      rcases items_render hArgs hMore hScope hClosing with
        ⟨first', rest', s₂, hOk, hOkRest, hSame⟩
      have hSeparated :
          Parse.separated expression s₁ =
            .ok (first' :: rest') s' := by
        rw [Parse.separated, Step.bind_of_ok hOk,
          Step.get_bind, Step.bind_of_ok hOkRest]
        rfl
      refine ⟨first' :: rest', hSame, fun callee line => ?_⟩
      rw [callArguments, Step.bind_of_ok hColon, if_pos rfl,
        Step.bind_of_ok hSeparated]

/- The types of arguments decide, so lines do not matter. -/
theorem checkArguments_of_unlined
    {args args' : List Expr}
    {params : List Ty}
    (hSame : allUnlined args' = allUnlined args)
    (hConverts : ∀ pair ∈ args.zip params,
      pair.1.ty.ConvertsTo pair.2) :
    checkArguments args' params = .ok () := by
  induction args' generalizing args params with
  | nil => rfl
  | cons arg' args' ih =>
      cases params with
      | nil => rfl
      | cons param params =>
          cases args with
          | nil => cases hSame
          | cons arg args =>
              rcases List.cons.inj hSame with ⟨hArg, hArgs⟩
              rw [List.zip_cons_cons] at hConverts
              rcases List.forall_mem_cons.mp hConverts with
                ⟨hFirst, hRest⟩
              rw [checkArguments,
                if_pos (ty_of_unlined hArg ▸ hFirst),
                ih hArgs hRest]

theorem ofCall_of_unlined
    {p : Prototype}
    {args args' : List Expr}
    (hSame : allUnlined args' = allUnlined args)
    (hLength : args.length = p.paramTypes.length)
    (hConverts : ∀ pair ∈ args.zip p.paramTypes,
      pair.1.ty.ConvertsTo pair.2) :
    ofCall p args' line =
      .ok (.call p.name p.id args' p.paramTypes p.returnType
        line) := by
  have hCount : p.paramTypes.length = args'.length := by
    rw [length_of_unlined hSame, hLength]
  dsimp only [ofCall]
  rw [if_neg (not_not_intro hCount),
    checkArguments_of_unlined hSame hConverts]
  rfl

theorem readAt_call
    {p : Prototype}
    {args : List Expr}
    (hKnown : σ.globals.prototype? p.name.name = some p)
    (hArgs : ∀ e ∈ args, Returns σ e)
    (hLength : args.length = p.paramTypes.length)
    (hConverts : ∀ pair ∈ args.zip p.paramTypes,
      pair.1.ty.ConvertsTo pair.2) :
    ReadAt σ 6
      (Expr.call p.name p.id args p.paramTypes p.returnType
        line).render
      (.call p.name p.id args p.paramTypes p.returnType
        line) := by
  rw [render]
  apply readAt_of_primary (List.cons_ne_nil _ _)
  intro depth s s' hDepth hAhead hScope _
  rw [List.length_cons, List.length_cons,
    List.length_append] at hDepth
  rcases hAhead.advance with ⟨s₁, hOpen, -, hInner⟩
  rcases hInner.advance with ⟨s₂, hName, -, hItems⟩
  rcases hItems.append with ⟨s₃, hFront, hClosing⟩
  rcases hClosing.expect with ⟨s₄, hClose, hEnd⟩
  cases hEnd.eq_of_nil
  have hRead : ∀ e ∈ args, ReadBy σ (nested depth) e := by
    intro e hMem
    have hLess := render_length_lt .colon hMem
    exact (hArgs e hMem).readBy (by omega)
  rcases callArguments_render hRead hFront
    (hClosing.scope_eq.trans hScope)
    hClosing.lookahead_eq with ⟨args', hSame, hCall⟩
  refine ⟨.call p.name p.id args' p.paramTypes p.returnType
    s.line, ?_, ?_⟩
  · rw [primary, Step.get_bind, hAhead.lookahead_eq]
    change bracketed _ s.line s = _
    rw [bracketed, Step.bind_of_ok hOpen, Step.get_bind,
      hInner.lookahead_eq, hInner.scope_eq, hScope]
    dsimp only
    rw [hKnown]
    change (Parse.advance >>= _) s₁ = _
    rw [Step.bind_of_ok hName, hCall,
      Step.bind_of_ok hClose,
      ofCall_of_unlined s.line hSame hLength hConverts]
    rfl
  · rw [unlined, unlined, hSame]

/- The common type of elements is found from their types. -/
theorem commonType_of_foldlM
    {t u : Ty}
    (hFold : (rest.map (·.ty)).foldlM Ty.unify t = some u) :
    commonType t rest = .ok u := by
  induction rest generalizing t with
  | nil =>
      cases hFold
      rfl
  | cons e rest ih =>
      rw [List.map_cons, List.foldlM_cons] at hFold
      rcases Option.bind_eq_some_iff.mp hFold with
        ⟨v, hUnify, hRest⟩
      rw [commonType, hUnify]
      exact ih hRest

theorem ofElements_of_unlined
    {first first' : Expr}
    {rest rest' : List Expr}
    {u : Ty}
    (hSame : allUnlined (first' :: rest') =
      allUnlined (first :: rest))
    (hCommon : Ty.common? ((first :: rest).map (·.ty)) =
      some u) :
    ofElements first' rest' line =
      .ok (.array (first' :: rest')
        (.array (first :: rest).length u) line) := by
  rw [← types_of_unlined hSame] at hCommon
  rw [ofElements, commonType_of_foldlM hCommon,
    ← length_of_unlined hSame]
  rfl

theorem readAt_elements
    {first : Expr}
    {u : Ty}
    {t : Token}
    {tokens : List Token}
    (hHead : first.render = t :: tokens)
    (hName : ∀ name, t ≠ .identifier name)
    (hBracket : t ≠ .symbol .rightBracket)
    (hElements : ∀ e ∈ first :: rest, Returns σ e)
    (hConstant : ∀ e ∈ first :: rest, e.isConstant = true)
    (hCommon : Ty.common? ((first :: rest).map (·.ty)) =
      some u) :
    ReadAt σ 6
      (renderItems .leftBracket (first :: rest) ++
        [.symbol .rightBracket])
      (.array (first :: rest)
        (.array (first :: rest).length u) line) := by
  apply readAt_of_primary
    (List.append_ne_nil_of_right_ne_nil _
      (List.cons_ne_nil _ _))
  intro depth s s' hDepth hAhead hScope _
  rw [List.length_append] at hDepth
  have hRead : ∀ e ∈ first :: rest,
      ReadBy σ (constant (nested depth)) e := by
    intro e hMem
    have hLess := render_length_lt .leftBracket hMem
    exact ((hElements e hMem).readBy (by omega)).constant
      (hConstant e hMem)
  rcases hAhead.append with ⟨s₃, hItems, hClosing⟩
  rcases hClosing.expect with ⟨s₄, hClose, hEnd⟩
  cases hEnd.eq_of_nil
  rcases hItems.advance with ⟨s₁, hOpen, -, hInner⟩
  rcases items_render hRead hInner
    (hClosing.scope_eq.trans hScope)
    hClosing.lookahead_eq with
      ⟨first', rest', s₂, hOk, hOkRest, hSame⟩
  refine ⟨.array (first' :: rest')
    (.array (first :: rest).length u) s.line, ?_, ?_⟩
  · rw [hHead] at hInner
    have hArray :
        arrayLiteral (nested depth) s.line s₁ =
          .ok (.array (first' :: rest')
            (.array (first :: rest).length u)
            s.line) s' := by
      rw [arrayLiteral, Step.get_bind, hInner.lookahead_eq,
        if_neg hBracket]
      change (constant (nested depth) >>= _) s₁ = _
      rw [Step.bind_of_ok hOk, Step.get_bind,
        Step.bind_of_ok hOkRest,
        Step.bind_of_ok hClose, ofElements_of_unlined s.line
          hSame hCommon]
      rfl
    rw [primary, Step.get_bind, hItems.lookahead_eq]
    change bracketed _ s.line s = _
    rw [bracketed, Step.bind_of_ok hOpen, Step.get_bind,
      hInner.lookahead_eq]
    -- a name would have made it a call
    cases t with
    | identifier name => exact absurd rfl (hName name)
    | _ => exact hArray
  · rw [unlined, unlined, hSame]

end Expr

------------------------------------------------------------
-- All Trees
------------------------------------------------------------

mutual

/- All places that have a text are read back. -/
theorem Place.reached
    {g : Globals}
    {σ : Scope} :
    ∀ place : Place, (∀ node ∈ place.nodes, node.Obeys g) →
      place.Writable σ → place.Reached σ
| .var x, _, _ => Place.reached_var x
| .element parent index t, hObeys, hWritable => by
    rw [Place.nodes, List.forall_mem_cons,
      List.forall_mem_append] at hObeys
    rcases hObeys with
      ⟨⟨hIntegral, hElement⟩, hParent, hIndex⟩
    rw [Place.Writable] at hWritable
    have hReturns := Expr.returns index hIndex hWritable.2
    exact (Place.reached parent hParent hWritable.1).element
      hReturns.readAt_zero hIntegral hElement
| .member parent position name t, hObeys, hWritable => by
    rw [Place.nodes, List.forall_mem_cons] at hObeys
    rcases hObeys with
      ⟨⟨serial, record, members, hRecord, hAt⟩, hParent⟩
    rw [Place.Writable] at hWritable
    exact (Place.reached parent hParent hWritable.1).member
      hRecord (findMember?_of_nodup
        (hWritable.2 serial record members hRecord) hAt)

/- All trees with a type and a text are read back. -/
theorem Expr.returns
    {g : Globals}
    {σ : Scope} :
    ∀ e : Expr, e.Sound g → e.Writable σ → Expr.Returns σ e
| .int value t line, hSound, hWritable => by
    rw [Expr.Writable] at hWritable
    subst hWritable
    rw [Expr.Sound, Expr.nodes, List.forall_mem_singleton]
      at hSound
    rcases hSound with ⟨-, hLow, hHigh⟩ | ⟨hChar, -⟩
    · refine (Expr.readAt_int line hLow hHigh).returns ?_
      rw [Expr.level]
      split <;> decide
    · cases hChar
| .float value line, _, _ => by
    refine (Expr.readAt_float value line).returns ?_
    rw [Expr.level]
    split <;> decide
| .boolean value line, _, _ =>
    (Expr.readAt_boolean value line).returns
      (show 6 ≤ 7 by decide)
| .array elements t line, hSound, hWritable => by
    rw [Expr.Sound, Expr.nodes, List.forall_mem_cons]
      at hSound
    have hObeys : (Expr.array elements t line).Obeys g :=
      hSound.1
    have hElements := hSound.2
    refine Expr.ReadAt.returns ?_ (show 6 ≤ 7 by decide)
    rcases Expr.array_cases hObeys hWritable with
      ⟨text, hText, hRender⟩ | ⟨first, rest, hEq,
        hWritableAll, hRender⟩
    · rw [hRender]
      exact Expr.readAt_string hText
    · have hReturns :=
        Expr.allReturn elements hElements hWritableAll
      rw [hRender]
      subst hEq
      rcases hObeys with ⟨hConstant, u, hCommon, rfl⟩
      rw [Expr.allNodes, List.forall_mem_append]
        at hElements
      rw [Expr.AllWritable] at hWritableAll
      have hFirst : first.Sound g := hElements.1
      rcases Expr.render_of_isConstant hFirst.obeys
        hWritableAll.1
          (hConstant first List.mem_cons_self) with
        ⟨t, tokens, hHead, hName, hBracket⟩
      exact Expr.readAt_elements line hHead hName hBracket
        hReturns hConstant hCommon
| .zero t line, _, hWritable => hWritable.elim
| .read place line, hSound, hWritable => by
    rw [Expr.Sound, Expr.nodes, List.forall_mem_cons]
      at hSound
    rw [Expr.Writable] at hWritable
    have hReached := Place.reached place hSound.2 hWritable
    exact (hReached.readAt line
      (place.lookup_root hWritable)).returns
      (show 6 ≤ 7 by decide)
| .arithmetic op left right t line, hSound, hWritable => by
    rw [Expr.Sound, Expr.nodes, List.forall_mem_cons,
      List.forall_mem_append] at hSound
    rcases hSound with ⟨hPromote, hLeft, hRight⟩
    rw [Expr.Writable] at hWritable
    exact (Expr.returns left hLeft hWritable.1).arithmetic
      line (Expr.returns right hRight hWritable.2) hPromote
| .negate operand t line, hSound, hWritable => by
    rw [Expr.Sound, Expr.nodes, List.forall_mem_cons]
      at hSound
    rcases hSound with
      ⟨⟨hNumeric, rfl, hNegation⟩, hOperand⟩
    rw [Expr.Writable] at hWritable
    exact (Expr.returns operand hOperand hWritable).negate
      line hWritable hNumeric hNegation
| .call callee prototype args params t line, hSound,
    hWritable => by
    rw [Expr.Sound, Expr.nodes, List.forall_mem_cons]
      at hSound
    rcases hSound with ⟨⟨hLength, hConverts, -⟩, hArgs⟩
    rw [Expr.Writable] at hWritable
    rcases hWritable with
      ⟨⟨p, hKnown, rfl, rfl, rfl, rfl⟩, hWritableAll⟩
    exact (Expr.readAt_call line hKnown
      (Expr.allReturn args hArgs hWritableAll) hLength
        hConverts).returns
      (show 6 ≤ 7 by decide)
| .compare op left right line, hSound, hWritable => by
    rw [Expr.Sound, Expr.nodes, List.forall_mem_cons,
      List.forall_mem_append] at hSound
    rcases hSound with ⟨hComparable, hLeft, hRight⟩
    rw [Expr.Writable] at hWritable
    exact (Expr.returns left hLeft hWritable.1).compare line
      (Expr.returns right hRight hWritable.2) hComparable
| .and left right line, hSound, hWritable => by
    rw [Expr.Sound, Expr.nodes, List.forall_mem_cons,
      List.forall_mem_append] at hSound
    rcases hSound with ⟨⟨hBool, hBool'⟩, hLeft, hRight⟩
    rw [Expr.Writable] at hWritable
    exact (Expr.returns left hLeft hWritable.1).and line
      (Expr.returns right hRight hWritable.2)
      ((Expr.isCondition_iff left).mp hBool)
      ((Expr.isCondition_iff right).mp hBool')
| .or left right line, hSound, hWritable => by
    rw [Expr.Sound, Expr.nodes, List.forall_mem_cons,
      List.forall_mem_append] at hSound
    rcases hSound with ⟨⟨hBool, hBool'⟩, hLeft, hRight⟩
    rw [Expr.Writable] at hWritable
    exact (Expr.returns left hLeft hWritable.1).or line
      (Expr.returns right hRight hWritable.2)
      ((Expr.isCondition_iff left).mp hBool)
      ((Expr.isCondition_iff right).mp hBool')
| .not operand line, hSound, hWritable => by
    rw [Expr.Sound, Expr.nodes, List.forall_mem_cons]
      at hSound
    rcases hSound with ⟨⟨hBool, hInversion⟩, hOperand⟩
    rw [Expr.Writable] at hWritable
    exact (Expr.returns operand hOperand hWritable).not line
      ((Expr.isCondition_iff operand).mp hBool) hInversion

/- So are all of several trees. -/
theorem Expr.allReturn
    {g : Globals}
    {σ : Scope} :
    ∀ es : List Expr,
      (∀ node ∈ Expr.allNodes es, node.Obeys g) →
      Expr.AllWritable σ es → ∀ e ∈ es, Expr.Returns σ e
| [], _, _ => List.forall_mem_nil _
| e :: rest, hObeys, hWritable => by
    rw [Expr.allNodes, List.forall_mem_append] at hObeys
    rw [Expr.AllWritable] at hWritable
    exact List.forall_mem_cons.mpr
      ⟨Expr.returns e hObeys.1 hWritable.1,
        Expr.allReturn rest hObeys.2 hWritable.2⟩

end

namespace Expr

/-
  In front of a semicolon, the tokens of a well-typed tree
  that has a text are read as the tree itself, up to lines,
  and nothing else is taken or changed.
-/
theorem parse_render
    {s : Parser}
    {e : Expr}
    {lexemes rest : List Lexeme}
    {stop : Lexeme}
    (hSound : e.Sound s.scope.globals)
    (hWritable : e.Writable s.scope)
    (hRender : lexemes.map (·.token) = e.render)
    (hStop : stop.token = .symbol .semicolon)
    (hTokens : s.tokens = lexemes ++ stop :: rest) :
    ∃ e', parse s =
      .ok e' { s with tokens := stop :: rest } ∧
      e'.unlined = e.unlined := by
  have hAhead : s.Ahead e.render
      { s with tokens := stop :: rest } := by
    refine ⟨lexemes, hRender, List.cons_ne_nil stop rest,
      ?_⟩
    rw [← hTokens]
  have hLeft := hAhead.left_eq
  have hPos := hAhead.left_pos
  have hHalts : Halts 0 stop.token := by
    rw [hStop]
    decide
  rw [parse, Step.get_bind]
  exact (returns e hSound hWritable).readAt_zero.nested
    s.left (by omega) hAhead rfl hHalts

/- A sample: an array, a flag and a function of a text. -/
def sampleScope : Scope :=
  ⟨[⟨none, [⟨"xs", .array 3 .int, .argument, 1⟩,
    ⟨"b", .bool, .argument, 1⟩]⟩], some 0,
    ⟨[⟨0, ⟨"f", .int, .global, 1⟩,
      [⟨"s", .array 2 .char, .argument, 1⟩],
      false, 1⟩], []⟩⟩

/- An element of the array. -/
def sampleElement : Expr :=
  .read (.element (.var ⟨"xs", .array 3 .int, .argument, 1⟩)
    (.int 1 .int 1) .int) 1

/- A letter of two bytes. -/
def sampleText : Expr :=
  .array [.int (-61) .char 1, .int (-87) .char 1]
    (.array 2 .char) 1

/- A condition with operators on five levels. -/
def sample : Expr :=
  .and
    (.compare .lessEqual
      (.arithmetic .multiply
        (.negate
          (.arithmetic .subtract sampleElement
            (.int 2 .int 1) .int 1)
          .int 1)
        (.call ⟨"f", .int, .global, 1⟩ 0 [sampleText]
          [.array 2 .char] .int 1)
        .int 1)
      (.int (-4) .int 1) 1)
    (.not (.read (.var ⟨"b", .bool, .argument, 1⟩) 1) 1) 1

/- The tokens of `-(xs[1] - 2) * [f: "é"] <= -4 && !b`. -/
def sampleTokens : List Token :=
  [.symbol .minus, .symbol .leftParen, .identifier "xs",
    .symbol .leftBracket, .integer 1, .symbol .rightBracket,
      .symbol .minus,
    .integer 2, .symbol .rightParen, .symbol .times,
      .symbol .leftBracket,
    .identifier "f", .symbol .colon, .string "é",
      .symbol .rightBracket,
    .symbol .lessEqual, .symbol .minus, .integer 4,
      .symbol .and,
    .symbol .not, .identifier "b"]

theorem sample_returns :
    ∃ e', parse
          ⟨(sampleTokens ++ [Token.symbol .semicolon]).map
            (⟨·, .start⟩), none, .start, sampleScope,
              none, 0⟩ =
        .ok e'
          ⟨[⟨.symbol .semicolon, .start⟩],
            none, .start, sampleScope, none, 0⟩ ∧
      e'.unlined = sample.unlined := by
  have hBytes : "é".toUTF8.toList = [0xC3, 0xA9] := by
    decide +kernel
  have hText : ∀ n, ofString "é" n =
      .array [.int (-61) .char n, .int (-87) .char n]
        (.array 2 .char) n := by
    intro n
    have hFirst : Int.bmod (0xC3 : UInt8).toNat 256 =
      -61 := by decide
    have hSecond : Int.bmod (0xA9 : UInt8).toNat 256 =
      -87 := by decide
    rw [ofString, hBytes, List.map_cons, List.map_cons,
      hFirst, hSecond]
    rfl
  have hElement :
      sampleElement.Sound sampleScope.globals := by
    rw [Sound, sampleElement, nodes, Place.nodes,
      Place.nodes, List.forall_mem_cons,
        List.forall_mem_cons, List.forall_mem_append,
      List.forall_mem_singleton]
    exact ⟨trivial, ⟨trivial, rfl⟩, trivial,
      @ofInteger_sound _ 1 1 _ rfl⟩
  have hFlag :
      (Expr.read (.var ⟨"b", .bool, .argument, 1⟩) 1).Sound
        sampleScope.globals := by
    rw [Sound, nodes, Place.nodes, List.forall_mem_cons,
      List.forall_mem_singleton]
    exact ⟨trivial, trivial⟩
  -- the checks that build a node also say that it is well
  -- typed
  have hTerm :=
    @ofNegation_sound _ _ _ 1
      (@joinArithmetic_sound _ .subtract _ _ _ 1 hElement
        (@ofInteger_sound _ 2 1 _ rfl) rfl) rfl
  have hCall :=
    @ofCall_sound sampleScope.globals
      ⟨0, ⟨"f", .int, .global, 1⟩,
        [⟨"s", .array 2 .char, .argument, 1⟩],
        false, 1⟩ _ 1 _ rfl
      (List.forall_mem_singleton.mpr
        (hText 1 ▸ ofString_sound "é" 1)) rfl
  have hSound : sample.Sound sampleScope.globals :=
    @joinAnd_sound _ _ _ _ 1
      (@joinCompare_sound _ .lessEqual _ _ _ 1
        (@joinArithmetic_sound _ .multiply _ _ _ 1 hTerm
          hCall rfl)
        (@ofInteger_sound _ (-4) 1 _ rfl) rfl)
      (@ofInversion_sound _ _ _ 1 hFlag rfl) rfl
  have hWritable : sample.Writable sampleScope := by
    have hString : sampleText.Writable sampleScope :=
      .inl ⟨"é", (hText 0).symm⟩
    exact
      ⟨⟨⟨⟨⟨rfl, rfl⟩, rfl⟩, ⟨_, rfl, rfl, rfl, rfl, rfl⟩,
        hString, trivial⟩,
      rfl⟩, rfl⟩
  have hRender : sampleTokens = sample.render := by
    decide +kernel
  exact @parse_render _ sample
    (sampleTokens.map (⟨·, .start⟩)) [] _ hSound
    hWritable hRender rfl rfl

end Expr

end Bracketry
