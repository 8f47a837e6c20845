import Bracketry.Proofs.Expr.Nodes

/-
  This file writes expressions as tokens, with parentheses
  only where precedence asks for them.

  Not every tree has a text: a number of type char stands
  only in a string, and a name is written for what a scope
  knows by it.  Lines are not written; two trees count as
  the same when they are equal without them.

  Main declarations:
    * `Expr.render` and `Expr.Writable`
    * `Expr.string?_of_text` and `Expr.render_of_isConstant`
-/

namespace Bracketry

mutual

/- A place with all lines put to zero. -/
def Place.unlined : Place → Place
| .var x => .var x
| .element parent index t =>
    .element parent.unlined index.unlined t
| .member parent position name t =>
    .member parent.unlined position name t

/- An expression with all lines put to zero. -/
def Expr.unlined : Expr → Expr
| .int value t _ => .int value t 0
| .float value _ => .float value 0
| .boolean value _ => .boolean value 0
| .array elements t _ =>
    .array (Expr.allUnlined elements) t 0
| .zero t _ => .zero t 0
| .read place _ => .read place.unlined 0
| .arithmetic op left right t _ =>
    .arithmetic op left.unlined right.unlined t 0
| .negate operand t _ => .negate operand.unlined t 0
| .call callee prototype args params t _ =>
    .call callee prototype (Expr.allUnlined args) params t 0
| .compare op left right _ =>
    .compare op left.unlined right.unlined 0
| .and left right _ => .and left.unlined right.unlined 0
| .or left right _ => .or left.unlined right.unlined 0
| .not operand _ => .not operand.unlined 0

/- Several expressions with all lines put to zero. -/
def Expr.allUnlined : List Expr → List Expr
| [] => []
| e :: rest => e.unlined :: Expr.allUnlined rest

end

namespace Place

theorem ty_unlined
    (place : Place) :
    place.unlined.ty = place.ty := by
  cases place <;> rfl

theorem ty_of_unlined
    {a b : Place}
    (hSame : a.unlined = b.unlined) :
    a.ty = b.ty := by
  rw [← ty_unlined a, hSame, ty_unlined]

end Place

namespace Expr

variable {a b : Expr} {as bs : List Expr}

theorem allUnlined_eq_map
    (es : List Expr) :
    allUnlined es = es.map unlined := by
  induction es with
  | nil => rfl
  | cons e rest ih => rw [allUnlined, ih, List.map_cons]

/- Lines have no part in types. -/
theorem ty_unlined
    (e : Expr) :
    e.unlined.ty = e.ty := by
  cases e with
  | read place line => exact place.ty_unlined
  | _ => rfl

theorem ty_of_unlined
    (hSame : a.unlined = b.unlined) :
    a.ty = b.ty := by
  rw [← ty_unlined a, hSame, ty_unlined]

theorem types_of_unlined
    (hSame : allUnlined as = allUnlined bs) :
    as.map (·.ty) = bs.map (·.ty) := by
  have hTypes :
      ∀ es : List Expr, es.map (·.ty) =
        (allUnlined es).map (·.ty) := by
    intro es
    rw [allUnlined_eq_map, List.map_map]
    exact List.map_congr_left fun e _ => (ty_unlined e).symm
  rw [hTypes as, hTypes bs, hSame]

theorem length_of_unlined
    (hSame : allUnlined as = allUnlined bs) :
    as.length = bs.length := by
  have hLength :=
    congrArg List.length (types_of_unlined hSame)
  rwa [List.length_map, List.length_map] at hLength

theorem isNegation_of_unlined
    (hSame : a.unlined = b.unlined) :
    a.IsNegation ↔ b.IsNegation := by
  have hKeeps : ∀ e : Expr, e.unlined.IsNegation ↔
      e.IsNegation := by
    intro e
    cases e <;> exact Iff.rfl
  rw [← hKeeps a, hSame, hKeeps]

theorem isInversion_of_unlined
    (hSame : a.unlined = b.unlined) :
    a.IsInversion ↔ b.IsInversion := by
  have hKeeps : ∀ e : Expr, e.unlined.IsInversion ↔
      e.IsInversion := by
    intro e
    cases e <;> exact Iff.rfl
  rw [← hKeeps a, hSame, hKeeps]

mutual

theorem isConstant_unlined :
    ∀ e : Expr, e.unlined.isConstant = e.isConstant
| .array elements t line => by
    rw [unlined, isConstant, isConstant, areConstant_unlined
      elements]
| .int _ _ _ => rfl
| .float _ _ => rfl
| .boolean _ _ => rfl
| .zero _ _ => rfl
| .read _ _ => rfl
| .arithmetic _ _ _ _ _ => rfl
| .negate _ _ _ => rfl
| .call _ _ _ _ _ _ => rfl
| .compare _ _ _ _ => rfl
| .and _ _ _ => rfl
| .or _ _ _ => rfl
| .not _ _ => rfl

theorem areConstant_unlined :
    ∀ es : List Expr, areConstant (allUnlined es) =
      areConstant es
| [] => rfl
| e :: rest => by
    rw [allUnlined, areConstant, areConstant,
      isConstant_unlined e, areConstant_unlined rest]

end

------------------------------------------------------------
-- Strings
------------------------------------------------------------

/- The byte that a number of type char stands for. -/
def byte? : Expr → Option UInt8
| .int value t _ =>
    if t = .char then some (UInt8.ofInt value) else none
| _ => none

/- The string whose bytes the elements are. -/
def string?
    (elements : List Expr)
    (t : Ty) : Option String :=
  if t.element? = some .char then
    (elements.mapM byte?).bind fun bytes =>
      String.fromUTF8? ⟨bytes.toArray⟩
  else
    none

theorem byte?_unlined
    (e : Expr) :
    e.unlined.byte? = e.byte? := by
  cases e <;> rfl

theorem mapM_byte?_unlined
    (es : List Expr) :
    (allUnlined es).mapM byte? = es.mapM byte? := by
  induction es with
  | nil => rfl
  | cons e rest ih =>
      rw [allUnlined, List.mapM_cons, List.mapM_cons,
        byte?_unlined, ih]

theorem toList_loop_eq
    (bytes : ByteArray)
    (i : Nat)
    (read : List UInt8) :
    ByteArray.toList.loop bytes i read =
      read.reverse ++ bytes.data.toList.drop i := by
  fun_induction ByteArray.toList.loop bytes i read with
  | case1 i read hMore ih =>
      have hBound : i < bytes.data.toList.length := hMore
      rw [ih, List.drop_eq_getElem_cons hBound]
      simp [ByteArray.get!, hMore]
  | case2 i read hDone =>
      rw [List.drop_eq_nil_of_le (Nat.le_of_not_lt hDone),
        List.append_nil]

theorem fromUTF8?_toList
    (text : String) :
    String.fromUTF8? ⟨text.toUTF8.toList.toArray⟩ =
      some text := by
  have hBytes : (⟨text.toUTF8.toList.toArray⟩ : ByteArray) =
      text.toUTF8 := by
    rw [ByteArray.toList, toList_loop_eq]
    rfl
  rw [hBytes, String.fromUTF8?]
  exact dif_pos text.isValidUTF8

/- A byte is found again from its signed value. -/
theorem ofInt_bmod
    (b : UInt8) :
    UInt8.ofInt (Int.bmod b.toNat 256) = b := by
  have hBound : b.toNat < 256 := b.toNat_lt
  have hMod : Int.bmod b.toNat 256 % 256 = b.toNat % 256 :=
    Int.bmod_emod
  apply UInt8.toNat_inj.mp
  rw [UInt8.ofInt, UInt8.toNat_ofNat']
  change (Int.bmod b.toNat 256 % 256).toNat % 256 = b.toNat
  omega

theorem mapM_byte?_signed
    (bytes : List UInt8) :
    (bytes.map fun b => Expr.int (Int.bmod b.toNat 256)
      .char 0).mapM byte? = some bytes := by
  induction bytes with
  | nil => rfl
  | cons b rest ih =>
      rw [List.map_cons, List.mapM_cons, ih, byte?,
        if_pos rfl, ofInt_bmod]
      rfl

theorem unlined_ofString
    (text : String)
    (line : Nat) :
    (ofString text line).unlined = ofString text 0 := by
  dsimp only [ofString]
  rw [unlined, allUnlined_eq_map, List.map_map,
    List.length_map, List.length_map]
  rfl

/- An array that is a string gives the string. -/
theorem string?_of_text
    {elements : List Expr}
    {t : Ty}
    {line : Nat}
    {text : String}
    (hText : (Expr.array elements t line).unlined =
      ofString text 0) :
    string? elements t = some text := by
  have hElements :
      allUnlined elements =
        text.toUTF8.toList.map fun b =>
          Expr.int (Int.bmod b.toNat 256) .char 0 :=
    (Expr.array.inj hText).1
  have hTy : t.element? = some .char := by
    rw [(Expr.array.inj hText).2.1]
    rfl
  rw [string?, if_pos hTy, ← mapM_byte?_unlined, hElements,
    mapM_byte?_signed]
  exact fromUTF8?_toList text

end Expr

namespace Arithmetic

/- The symbol of an operator. -/
def symbol : Arithmetic → Symbol
| .add => .plus
| .subtract => .minus
| .multiply => .times
| .divide => .divide

/- The level of an operator, weakest first. -/
def level : Arithmetic → Nat
| .add => 4
| .subtract => 4
| .multiply => 5
| .divide => 5

theorem level_lt
    (op : Arithmetic) :
    op.level < 6 := by
  cases op <;> decide

end Arithmetic

namespace Comparison

/- The symbol of a comparison. -/
def symbol : Comparison → Symbol
| .less => .less
| .lessEqual => .lessEqual
| .equal => .equal
| .notEqual => .notEqual
| .greaterEqual => .greaterEqual
| .greater => .greater

/- The level of a comparison. -/
def level : Comparison → Nat
| .equal => 2
| .notEqual => 2
| _ => 3

theorem level_lt
    (op : Comparison) :
    op.level < 6 := by
  cases op <;> decide

end Comparison

namespace Expr

/-
  How tightly an expression holds together: the level of its
  operator, above them the signs, and then what needs
  neither.
-/
def level : Expr → Nat
| .or _ _ _ => 0
| .and _ _ _ => 1
| .compare op _ _ _ => op.level
| .arithmetic op _ _ _ _ => op.level
| .negate _ _ _ => 6
| .not _ _ => 6
| .int value _ _ => if value < 0 then 6 else 7
| .float value _ => if value.negative then 6 else 7
| _ => 7

/- Numbers, which a minus sign would change. -/
def isNumber : Expr → Bool
| .int _ _ _ => true
| .float _ _ => true
| _ => false

/- Tokens, in parentheses where these are needed. -/
def parenthesized
    (needed : Bool)
    (tokens : List Token) : List Token :=
  if needed then
    .symbol .leftParen :: (tokens ++ [.symbol .rightParen])
  else
    tokens

end Expr

------------------------------------------------------------
-- Rendering
------------------------------------------------------------

mutual

/- A variable and the brackets behind it. -/
def Place.render : Place → List Token
| .var x => [.identifier x.name]
| .element parent index _ =>
    parent.render ++
      .symbol .leftBracket ::
        (index.render ++ [.symbol .rightBracket])
| .member parent _ name _ =>
    parent.render ++
      [.symbol .leftBracket, .identifier name,
        .symbol .rightBracket]

/-
  The tokens of an expression.  An operand on the left may
  be of the operator's own level, one on the right may not.
-/
def Expr.render : Expr → List Token
| .int value _ _ =>
    if value < 0 then
      [.symbol .minus, .integer value.natAbs]
    else
      [.integer value.natAbs]
| .float value _ =>
    if value.negative then
      [.symbol .minus, .decimal value.neg]
    else
      [.decimal value]
| .boolean value _ => [.boolean value]
| .array elements t _ =>
    match Expr.string? elements t with
    | some text => [.string text]
    | none =>
        Expr.renderItems .leftBracket elements ++
          [.symbol .rightBracket]
| .zero _ _ => []
| .read place _ => place.render
| .arithmetic op left right _ _ =>
    Expr.parenthesized (left.level < op.level)
      left.render ++ .symbol op.symbol ::
        Expr.parenthesized (right.level < op.level + 1)
          right.render
| .negate operand _ _ =>
    .symbol .minus ::
      Expr.parenthesized
        (operand.isNumber || operand.level < 6)
        operand.render
| .call callee _ args _ _ _ =>
    .symbol .leftBracket :: .identifier callee.name ::
      (Expr.renderItems .colon args ++
        [.symbol .rightBracket])
| .compare op left right _ =>
    Expr.parenthesized (left.level < op.level)
      left.render ++ .symbol op.symbol ::
        Expr.parenthesized (right.level < op.level + 1)
          right.render
| .and left right _ =>
    Expr.parenthesized (left.level < 1) left.render ++
      .symbol .and ::
        Expr.parenthesized (right.level < 2) right.render
| .or left right _ =>
    Expr.parenthesized (left.level < 0) left.render ++
      .symbol .or ::
        Expr.parenthesized (right.level < 1) right.render
| .not operand _ =>
    .symbol .not ::
      Expr.parenthesized (operand.level < 6) operand.render

/- Items, the first behind a symbol, others a comma. -/
def Expr.renderItems : Symbol → List Expr → List Token
| _, [] => []
| lead, e :: rest =>
    .symbol lead ::
      (e.render ++ Expr.renderItems .comma rest)

end

namespace Expr

theorem render_length_lt
    {e : Expr}
    {es : List Expr}
    (lead : Symbol)
    (hMem : e ∈ es) :
    e.render.length < (renderItems lead es).length := by
  induction es generalizing lead with
  | nil => cases hMem
  | cons first rest ih =>
      rw [renderItems, List.length_cons, List.length_append]
      rcases List.mem_cons.mp hMem with rfl | hRest
      · omega
      · have hLess := ih .comma hRest
        omega

theorem length_le_renderItems
    (lead : Symbol)
    (es : List Expr) :
    es.length ≤ (renderItems lead es).length := by
  induction es generalizing lead with
  | nil => exact Nat.zero_le _
  | cons first rest ih =>
      have hRest := ih .comma
      rw [renderItems, List.length_cons, List.length_cons,
        List.length_append]
      omega

end Expr

mutual

/- The variable is known by its name. -/
def Place.Writable (σ : Scope) : Place → Prop
| .var x => σ.lookup x.name = some (.var x)
| .element parent index _ =>
    parent.Writable σ ∧ index.Writable σ
| .member parent _ _ _ =>
    parent.Writable σ ∧
      ∀ serial record members,
        parent.ty = .record serial record members →
          (members.map Prod.fst).Nodup

/-
  Names are known to a scope, numbers are of type int
  outside strings, and nothing is left to be filled with
  zeros.
-/
def Expr.Writable (σ : Scope) : Expr → Prop
| .int _ t _ => t = .int
| .float _ _ => True
| .boolean _ _ => True
| .array elements t line =>
    (∃ text, (Expr.array elements t line).unlined =
      Expr.ofString text 0) ∨
      (t.element? ≠ some .char ∧
        Expr.AllWritable σ elements)
| .zero _ _ => False
| .read place _ => place.Writable σ
| .arithmetic _ left right _ _ =>
    left.Writable σ ∧ right.Writable σ
| .negate operand _ _ => operand.Writable σ
| .call callee prototype args params t _ =>
    (∃ p, σ.globals.prototype? callee.name = some p ∧
      p.name = callee ∧ p.id = prototype ∧
        p.paramTypes = params ∧ p.returnType = t) ∧
      Expr.AllWritable σ args
| .compare _ left right _ =>
    left.Writable σ ∧ right.Writable σ
| .and left right _ => left.Writable σ ∧ right.Writable σ
| .or left right _ => left.Writable σ ∧ right.Writable σ
| .not operand _ => operand.Writable σ

/- All of several expressions have a text. -/
def Expr.AllWritable (σ : Scope) : List Expr → Prop
| [] => True
| e :: rest => e.Writable σ ∧ Expr.AllWritable σ rest

end

theorem Place.lookup_root
    {σ : Scope} :
    ∀ place : Place, place.Writable σ →
      σ.lookup place.root.name = some (.var place.root)
| .var _, hWritable => hWritable
| .element parent _ _, hWritable =>
    lookup_root parent hWritable.1
| .member parent _ _ _, hWritable =>
    lookup_root parent hWritable.1

theorem Place.render_eq_cons
    (place : Place) :
    ∃ rest, place.render =
      .identifier place.root.name :: rest := by
  cases place with
  | var x => exact ⟨[], rfl⟩
  | element parent index t =>
      rcases parent.render_eq_cons with ⟨rest, hRest⟩
      rw [Place.render, Place.root, hRest]
      exact ⟨_, rfl⟩
  | member parent position name t =>
      rcases parent.render_eq_cons with ⟨rest, hRest⟩
      rw [Place.render, Place.root, hRest]
      exact ⟨_, rfl⟩

/- The tokens of numbers. -/
def Token.IsNumber : Token → Prop
| .integer _ => True
| .decimal _ => True
| _ => False

namespace Expr

variable {σ : Scope} {e : Expr} {g : Globals}

/- Behind a minus sign no number comes first. -/
theorem parenthesized_head
    (hWritable : e.Writable σ) :
    ∃ t rest, parenthesized (e.isNumber || e.level < 6)
      e.render = t :: rest ∧ ¬ t.IsNumber := by
  cases hNeeded : (e.isNumber || decide (e.level < 6)) with
  | true => exact ⟨_, _, rfl, id⟩
  | false =>
      rw [Bool.or_eq_false_iff, decide_eq_false_iff_not]
        at hNeeded
      rcases hNeeded with ⟨hNumber, hLevel⟩
      change ∃ t rest, e.render = t :: rest ∧ ¬ t.IsNumber
      cases e with
      | int value t line => cases hNumber
      | float value line => cases hNumber
      | zero t line => exact hWritable.elim
      | boolean value line => exact ⟨_, _, rfl, id⟩
      | array elements t line =>
          rw [render]
          cases string? elements t with
          | some text => exact ⟨_, _, rfl, id⟩
          | none =>
              cases elements with
              | nil => exact ⟨_, _, rfl, id⟩
              | cons e rest => exact ⟨_, _, rfl, id⟩
      | read place line =>
          rcases place.render_eq_cons with ⟨rest, hRest⟩
          exact ⟨_, _, hRest, id⟩
      | negate operand t line => exact ⟨_, _, rfl, id⟩
      | call callee prototype args params t line =>
          exact ⟨_, _, rfl, id⟩
      | not operand line => exact ⟨_, _, rfl, id⟩
      | arithmetic op left right t line =>
          exact absurd op.level_lt hLevel
      | compare op left right line =>
          exact absurd op.level_lt hLevel
      | and left right line =>
          exact absurd (show 1 < 6 by decide) hLevel
      | or left right line =>
          exact absurd (show 0 < 6 by decide) hLevel

/-
  An array is written as a string, or as elements of which
  there is at least one.
-/
theorem array_cases
    {elements : List Expr}
    {t : Ty}
    {line : Nat}
    (hObeys : (Expr.array elements t line).Obeys g)
    (hWritable : (Expr.array elements t line).Writable σ) :
    (∃ text, (Expr.array elements t line).unlined =
        ofString text 0 ∧
          (Expr.array elements t line).render =
            [.string text]) ∨
      ∃ first rest, elements = first :: rest ∧
        AllWritable σ elements ∧
        (Expr.array elements t line).render =
          renderItems .leftBracket elements ++
            [.symbol .rightBracket] := by
  rw [Writable] at hWritable
  rcases hWritable with ⟨text, hText⟩ | ⟨hOther, hElements⟩
  · refine .inl ⟨text, hText, ?_⟩
    rw [render, string?_of_text hText]
  · have hString : string? elements t = none :=
      if_neg hOther
    rcases hObeys with ⟨-, u, hCommon, hTy⟩
    cases elements with
    | nil =>
        cases hCommon
        exact absurd (congrArg Ty.element? hTy) hOther
    | cons first rest =>
        refine .inr ⟨first, rest, rfl, hElements, ?_⟩
        rw [render, hString]

/- A constant starts with no name and no bracket. -/
theorem render_of_isConstant
    (hObeys : e.Obeys g)
    (hWritable : e.Writable σ)
    (hConstant : e.isConstant = true) :
    ∃ t rest, e.render = t :: rest ∧
      (∀ name, t ≠ .identifier name) ∧
        t ≠ .symbol .rightBracket := by
  cases e with
  | int value t line =>
      rw [render]
      split
      · exact ⟨_, _, rfl, by simp, by simp⟩
      · exact ⟨_, _, rfl, by simp, by simp⟩
  | float value line =>
      rw [render]
      split
      · exact ⟨_, _, rfl, by simp, by simp⟩
      · exact ⟨_, _, rfl, by simp, by simp⟩
  | boolean value line =>
      exact ⟨_, _, rfl, by simp, by simp⟩
  | array elements t line =>
      rcases array_cases hObeys hWritable with
        ⟨text, -, hRender⟩ | ⟨first, rest, rfl, -, hRender⟩
      · exact ⟨_, _, hRender, by simp, by simp⟩
      · exact ⟨_, _, hRender, by simp, by simp⟩
  | zero t line => exact hWritable.elim
  | _ => cases hConstant

end Expr

end Bracketry
