import Bracketry.Proofs.Expr.RoundTrip
import Bracketry.Proofs.Ty.Shape

/-
  This file shows that the type of an array literal does not
  depend on the order of its elements.

  The common type is found by taking in one element after
  the other.  Taking in two elements gives the same in
  either order, also where it fails, so the type of a
  literal is a matter of which elements it has.

  Main declarations:
    * `Expr.elements` and `Expr.typeRead`
    * `Expr.arrayLiteral_of_elements`
    * `Expr.elements_unordered`
-/

namespace Bracketry

namespace Ty

/- Two types are taken in, in either order. -/
theorem unify_right_comm
    (t a b : Ty) :
    (t.unify a).bind (·.unify b) =
      (t.unify b).bind (·.unify a) := by
  rw [unify_assoc, unify_comm a b, ← unify_assoc]

variable {ts us : List Ty}

theorem foldlM_unify_perm
    (hPerm : ts.Perm us)
    (t : Ty) :
    ts.foldlM unify t = us.foldlM unify t := by
  induction hPerm generalizing t with
  | nil => rfl
  | cons a _ ih =>
      rw [List.foldlM_cons, List.foldlM_cons]
      exact congrArg (Option.bind (t.unify a)) (funext ih)
  | swap a b rest =>
      simp only [List.foldlM_cons, Option.bind_eq_bind,
        ← Option.bind_assoc]
      rw [unify_right_comm]
  | trans _ _ ihFirst ihSecond => rw [ihFirst, ihSecond]

/- The common type does not depend on the order. -/
theorem common?_perm
    (hPerm : ts.Perm us) :
    common? ts = common? us := by
  induction hPerm with
  | nil => rfl
  | cons a hPerm => exact foldlM_unify_perm hPerm a
  | swap a b rest =>
      rw [common?, common?, List.foldlM_cons,
        List.foldlM_cons, unify_comm]
  | trans _ _ ihFirst ihSecond => rw [ihFirst, ihSecond]

/- The type of a literal, from the types of its elements. -/
def literal? (ts : List Ty) : Option Ty :=
  (common? ts).map (array ts.length)

theorem literal?_perm
    (hPerm : ts.Perm us) :
    literal? ts = literal? us := by
  rw [literal?, literal?, common?_perm hPerm,
    hPerm.length_eq]

end Ty

namespace Expr

variable {s s' : Parser} {depth : Nat}

/- A literal's type is made of those of its elements. -/
theorem ofElements_type
    (first : Expr)
    (rest : List Expr)
    (line : Nat) :
    (ofElements first rest line).toOption.map ty =
      Ty.literal? ((first :: rest).map ty) := by
  rw [Ty.literal?, List.length_map]
  cases hCommon : Ty.common? ((first :: rest).map ty) with
  | some u =>
      rw [ofElements, commonType_of_foldlM hCommon]
      rfl
  | none =>
      rw [Option.map_none, Option.map_eq_none_iff]
      cases hOk : ofElements first rest line with
      | error fault => rfl
      | ok e =>
          rcases Step.except_bind_eq_ok.mp hOk with
            ⟨u, hFound, -⟩
          cases hCommon.symm.trans
            (foldlM_of_commonType hFound)

/- The elements of a literal up to its closing bracket. -/
def elements (expression : Parse Expr) :
    Parse (List Expr) := do
    let es ← Parse.separated (constant expression)
    Parse.expect (.symbol .rightBracket)
    return es

/- The type of a tree that was read, if one was. -/
def typeRead : EStateM.Result Fault Parser Expr → Option Ty
| .ok e _ => some e.ty
| .error _ _ => none

theorem typeRead_ofExcept
    (outcome : Except Fault Expr)
    (s : Parser) :
    typeRead (Parse.ofExcept outcome s) =
      outcome.toOption.map ty := by
  cases outcome <;> rfl

/- No expression starts with a closing bracket. -/
theorem nested_at_bracket
    (depth : Nat)
    (hBracket : s.lookahead = .symbol .rightBracket) :
    nested depth s = Parse.unexpected .expression s := by
  cases depth with
  | zero => rfl
  | succ depth =>
      have hPrimary :
          primary (nested depth) s =
            Parse.unexpected .expression s := by
        simp only [primary, Step.get_bind, hBracket]
      have hUnary :
          unary (primary (nested depth)) s =
            Parse.unexpected .expression s := by
        rw [unary, Step.get_bind]
        cases s.left with
        | zero => exact hPrimary
        | succ turns =>
            simp only [unaryUpTo, Step.get_bind, hBracket,
              hPrimary]
      rw [nested, ladder]
      induction levels with
      | nil => exact hUnary
      | cons level levels ih =>
          rw [List.foldr_cons, binary]
          exact Step.bind_of_error ih

/- What is read in brackets decides on the literal. -/
theorem arrayLiteral_of_elements
    {es : List Expr}
    (line : Nat)
    (hElements : elements (nested depth) s = .ok es s') :
    typeRead (arrayLiteral (nested depth) line s) =
      Ty.literal? (es.map ty) := by
  rcases Step.bind_eq_ok.mp hElements with
    ⟨_, s₂, hItems, hEnding⟩
  rcases Step.bind_eq_ok.mp hEnding with
    ⟨_, s₃, hClose, hEnd⟩
  rcases Step.pure_eq_ok.mp hEnd with ⟨rfl, rfl⟩
  rcases Step.bind_eq_ok.mp hItems with
    ⟨first, s₁, hFirst, hOthers⟩
  rw [Step.get_bind] at hOthers
  rcases Step.bind_eq_ok.mp hOthers with
    ⟨rest, s₄, hRest, hLast⟩
  rcases Step.pure_eq_ok.mp hLast with ⟨rfl, rfl⟩
  have hOpen : s.lookahead ≠ .symbol .rightBracket := by
    intro hBracket
    rw [constant, Step.bind_of_error
      (nested_at_bracket depth hBracket)] at hFirst
    cases hFirst
  rw [arrayLiteral, Step.get_bind, if_neg hOpen]
  change typeRead ((constant (nested depth) >>= _) s) = _
  rw [Step.bind_of_ok hFirst, Step.get_bind,
    Step.bind_of_ok hRest,
    Step.bind_of_ok hClose, typeRead_ofExcept,
      ofElements_type]

/- Constants written in a row are read so. -/
theorem elements_render
    {σ : Scope}
    {first : Expr}
    {rest : List Expr}
    (hEach :
      ∀ e ∈ first :: rest,
        e.isConstant = true ∧ e.Sound σ.globals ∧
          e.Writable σ)
    (hDepth : s.left ≤ depth)
    (hAhead :
      s.Ahead
        (first.render ++ renderItems .comma rest ++
          [.symbol .rightBracket])
        s')
    (hScope : s'.scope = σ) :
    ∃ es, elements (nested depth) s = .ok es s' ∧
      allUnlined es = allUnlined (first :: rest) := by
  rcases hAhead.append with ⟨s₁, hItems, hClosing⟩
  rcases hClosing.expect with ⟨s₂, hClose, hEnd⟩
  cases hEnd.eq_of_nil
  have hRead :
      ∀ e ∈ first :: rest,
        ReadBy σ (constant (nested depth)) e := by
    intro e hMem
    have hLess := render_length_lt .leftBracket hMem
    have hLeft := hItems.left_eq
    have hPos := hItems.left_pos
    rw [renderItems, List.length_cons] at hLess
    rcases hEach e hMem with ⟨hConstant, hSound, hWritable⟩
    have hReturns := returns e hSound hWritable
    exact (hReturns.readBy (by omega)).constant hConstant
  rcases items_render hRead hItems
    (hClosing.scope_eq.trans hScope)
    hClosing.lookahead_eq with
      ⟨first', rest', s₂, hFirst, hRest, hSame⟩
  refine ⟨first' :: rest', ?_, hSame⟩
  have hSeparated :
      Parse.separated (constant (nested depth)) s =
        .ok (first' :: rest') s₁ := by
    rw [Parse.separated, Step.bind_of_ok hFirst,
      Step.get_bind, Step.bind_of_ok hRest]
    rfl
  rw [elements, Step.bind_of_ok hSeparated,
    Step.bind_of_ok hClose]
  rfl

/-
  Finding a common type is commutative, associative and
  idempotent, also where it fails, and each of two elements
  completes their common type.  So elements in any other
  order make a literal of the same type, or none in any
  order.
-/
theorem elements_unordered :
    (∀ a b : Ty, a.unify b = b.unify a) ∧
    (∀ a b c : Ty,
      (a.unify b).bind (·.unify c) =
        (b.unify c).bind (a.unify ·)) ∧
    (∀ a : Ty, a.unify a = some a) ∧
    (∀ a b t : Ty, a.unify b = some t →
      t.inferFrom a = some t ∧ t.inferFrom b = some t) ∧
    (∀ first rest first' rest' line line',
      ((first :: rest).map ty).Perm
        ((first' :: rest').map ty) →
        (ofElements first rest line).toOption.map ty =
          (ofElements first' rest' line').toOption.map ty) ∧
    (∀ depth depth' line line' s s' z z' es es',
      elements (nested depth) s = .ok es z →
      elements (nested depth') s' = .ok es' z' →
      (es.map ty).Perm (es'.map ty) →
        typeRead (arrayLiteral (nested depth) line s) =
          typeRead
            (arrayLiteral (nested depth') line' s')) ∧
    (∀ σ es,
      (∀ e ∈ es, e.isConstant = true ∧ e.Sound σ.globals ∧
        e.Writable σ) →
          ∀ first rest, (first :: rest).Perm es →
          ∀ depth line s z, s.left ≤ depth →
            s.Ahead
              (first.render ++ renderItems .comma rest ++
              [.symbol .rightBracket]) z →
            z.scope = σ →
              typeRead
                (arrayLiteral (nested depth) line s) =
                Ty.literal? (es.map ty)) := by
  refine ⟨Ty.unify_comm, Ty.unify_assoc, Ty.unify_self, ?_,
    ?_, ?_, ?_⟩
  · intro a b t hUnify
    exact ⟨Ty.inferFrom_of_unify hUnify,
      Ty.inferFrom_of_unify (Ty.unify_comm a b ▸ hUnify)⟩
  · intro first rest first' rest' line line' hPerm
    rw [ofElements_type, ofElements_type,
      Ty.literal?_perm hPerm]
  · intro depth depth' line line' s s' z z' es es' hRead
      hRead' hPerm
    rw [arrayLiteral_of_elements line hRead,
      arrayLiteral_of_elements line' hRead',
        Ty.literal?_perm hPerm]
  · intro σ es hEach first rest hPerm depth line s z hDepth
      hAhead hScope
    have hListed := fun e hMem =>
      hEach e (hPerm.mem_iff.mp hMem)
    rcases elements_render hListed hDepth hAhead hScope with
      ⟨es', hRead, hSame⟩
    rw [arrayLiteral_of_elements line hRead,
      types_of_unlined hSame,
      Ty.literal?_perm (hPerm.map ty)]

/- A reader in front of some tokens and a semicolon. -/
def inFrontOf (tokens : List Token) : Parser :=
  ⟨(tokens ++ [Token.symbol .semicolon]).map (⟨·, .start⟩),
    none, .start, .empty, none, 0⟩

theorem ahead_inFrontOf
    (tokens : List Token) :
    (inFrontOf tokens).Ahead tokens (inFrontOf []) := by
  refine ⟨tokens.map (⟨·, .start⟩), ?_,
    List.cons_ne_nil _ _, ?_⟩
  · rw [List.map_map]
    exact List.map_id tokens
  · rw [inFrontOf, List.map_append]
    rfl

/- A whole number and a fraction, in both orders. -/
theorem mixed_unordered :
    Ty.float.inferFrom .int = some .float ∧
      typeRead (arrayLiteral (nested 5) 1 (inFrontOf
        [.integer 4, .symbol .comma, .decimal .zero,
          .symbol .rightBracket])) =
        some (.array 2 .float) ∧
      typeRead (arrayLiteral (nested 5) 1 (inFrontOf
        [.decimal .zero, .symbol .comma, .integer 4,
          .symbol .rightBracket])) =
        some (.array 2 .float) := by
  rcases elements_unordered with
    ⟨-, -, -, hInfer, -, hAnyRead, hAnyText⟩
  have hFour :
      (Expr.int 4 .int 1).Sound Scope.empty.globals :=
    @ofInteger_sound _ 4 1 _ rfl
  have hZero :
      (Expr.float .zero 1).Sound Scope.empty.globals := by
    rw [Sound, nodes]
    exact List.forall_mem_singleton.mpr trivial
  have hEach : ∀ e ∈ [Expr.int 4 .int 1, .float .zero 1],
      e.isConstant = true ∧ e.Sound Scope.empty.globals ∧
        e.Writable .empty := by
    rw [List.forall_mem_cons, List.forall_mem_singleton]
    exact ⟨⟨rfl, hFour, rfl⟩, rfl, hZero, trivial⟩
  have hRead : ∀ first rest,
      (first :: rest).Perm
        [Expr.int 4 .int 1, .float .zero 1] →
        (inFrontOf
          (first.render ++ renderItems .comma rest ++
          [.symbol .rightBracket])).left ≤ 5 →
        ∃ es, elements (nested 5)
            (inFrontOf (first.render ++
            renderItems .comma rest ++
              [.symbol .rightBracket])) =
              .ok es (inFrontOf []) ∧
          es.map ty = (first :: rest).map ty := by
    intro first rest hPerm hDepth
    have hListed := fun e hMem =>
      hEach e (hPerm.mem_iff.mp hMem)
    rcases elements_render hListed hDepth
      (ahead_inFrontOf _) rfl with
      ⟨es, hRead, hSame⟩
    exact ⟨es, hRead, types_of_unlined hSame⟩
  have hFirst :=
    hAnyText _ _ hEach _ _ (.refl _) 5 1 (inFrontOf _) _
      (by decide) (ahead_inFrontOf _) rfl
  rcases hRead _ _ (.refl _) (by decide) with
    ⟨es, hRead₁, hTypes₁⟩
  rcases hRead _ _ (.swap _ _ _) (by decide) with
    ⟨es', hRead₂, hTypes₂⟩
  have hSecond := hAnyRead 5 5 1 1 _ _ _ _ _ _ hRead₁ hRead₂
    (by rw [hTypes₁, hTypes₂]; exact .swap _ _ _)
  exact ⟨(hInfer .int .float .float rfl).1, hFirst,
    hSecond.symm.trans hFirst⟩

end Expr

end Bracketry
