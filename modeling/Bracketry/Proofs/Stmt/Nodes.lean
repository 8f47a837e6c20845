import Bracketry.Proofs.Expr.Nodes
import Bracketry.Proofs.Stmt.Acceptance

/-
  This file shows that every statement which is read keeps
  its rule, at any depth, and that the nodes of its
  expressions do.

  A statement is looked at together with its own conditions
  and values; what stands inside it is looked at on its own.
-/

namespace Bracketry

namespace Stmt

mutual

/- A statement with all statements inside it. -/
def within : Stmt → List Stmt
| .empty line => [.empty line]
| .sequence head tail =>
    .sequence head tail :: (head.within ++ allWithin tail)
| .ifThen condition body line =>
    .ifThen condition body line :: body.within
| .ifElse condition body other line =>
    .ifElse condition body other line ::
      (body.within ++ other.within)
| .whileLoop condition body line =>
    .whileLoop condition body line :: body.within
| .doWhile body condition line =>
    .doWhile body condition line :: body.within
| .assign target value line => [.assign target value line]
| .ret value t line => [.ret value t line]
| .breakLoop line => [.breakLoop line]
| .evaluate call line => [.evaluate call line]

/- Several statements with all inside them. -/
def allWithin : List Stmt → List Stmt
| [] => []
| st :: rest => st.within ++ allWithin rest

end

/- The nodes of a statement's own conditions and values. -/
def nodes : Stmt → List Node
| .ifThen condition _ _ => condition.nodes
| .ifElse condition _ _ _ => condition.nodes
| .whileLoop condition _ _ => condition.nodes
| .doWhile _ condition _ => condition.nodes
| .assign target value _ => target.nodes ++ value.nodes
| .ret (some value) _ _ => value.nodes
| .evaluate call _ => call.nodes
| _ => []

/- What a statement says, for a given result. -/
def Obeys (returns : Ty) : Stmt → Prop
| .ifThen condition _ _ => condition.IsCondition
| .ifElse condition _ _ _ => condition.IsCondition
| .whileLoop condition _ _ => condition.IsCondition
| .doWhile _ condition _ => condition.IsCondition
| .ret none t _ => t = returns ∧ returns = .void
| .ret (some value) t _ =>
    t = returns ∧ returns ≠ .void ∧
      value.ty.ConvertsTo returns
| .evaluate call _ => call.IsCall
| _ => True

/- A statement and its own nodes keep their rules. -/
structure Sound
    (g : Globals)
    (returns : Ty)
    (st : Stmt) : Prop where
  obeys : st.Obeys returns
  nodes : ∀ node ∈ st.nodes, node.Obeys g

variable {g g' : Globals} {returns : Ty}

theorem Sound.grow
    {st : Stmt}
    (hSound : st.Sound g returns)
    (hGrows : g.Grows g') :
    st.Sound g' returns where
  obeys := hSound.obeys
  nodes := fun node hMem =>
    (hSound.nodes node hMem).grow hGrows

/- Statements in order are sound if all inside them are. -/
theorem within_ofList_sound
    {sts : List Stmt}
    (hAll : ∀ st ∈ sts, ∀ inner ∈ st.within,
      inner.Sound g returns)
    (line : Nat) :
    ∀ inner ∈ (Stmt.ofList sts line).within,
      inner.Sound g returns := by
  have hEach : ∀ inner ∈ allWithin sts,
      inner.Sound g returns := by
    induction sts with
    | nil => simp [allWithin]
    | cons st rest ih =>
        rcases List.forall_mem_cons.mp hAll with
          ⟨hFirst, hRest⟩
        rw [allWithin]
        exact List.forall_mem_append.mpr ⟨hFirst, ih hRest⟩
  cases sts with
  | nil =>
      rw [ofList, within]
      exact List.forall_mem_singleton.mpr
        ⟨trivial, by simp [nodes]⟩
  | cons head tail =>
      rw [ofList, within]
      rw [allWithin] at hEach
      exact List.forall_mem_cons.mpr
        ⟨⟨trivial, by simp [nodes]⟩, hEach⟩

/- The initial value of a type is sound. -/
theorem initial_sound
    {t : Ty}
    {line : Nat}
    {e : Expr}
    (hOk : Expr.initial t line = .ok e) :
    e.Sound g := by
  unfold Expr.initial at hOk
  split at hOk
  · cases hOk
  all_goals
    cases hOk
    rw [Expr.Sound, Expr.nodes]
    refine List.forall_mem_singleton.mpr ?_
  · trivial
  · exact .inr ⟨rfl, by decide, by decide⟩
  · exact .inl ⟨rfl, by decide, by decide⟩
  · trivial
  · trivial

theorem Initial.sound
    {σ : Scope}
    {declared t : Ty}
    {value : Expr}
    (hNumbered : σ.globals.Numbered)
    (hInitial : Initial σ declared t value) :
    value.Sound σ.globals := by
  cases hInitial with
  | given hValue _ => exact hValue.obeys hNumbered
  | default _ hOk => exact initial_sound hOk

end Stmt

/- Inside a function with a result, under headers. -/
structure Context.Returning
    (g : Globals)
    (returns : Ty)
    (c : Context) : Prop where
  globals : c.scope.globals = g
  returns :
    ∀ enclosing, c.function = some enclosing →
      enclosing.returnType = returns

theorem Context.Returning.keep
    {g : Globals}
    {returns : Ty}
    {c c' : Context}
    (hInside : c.Returning g returns)
    (hKept : c.Kept c') :
    c'.Returning g returns where
  globals := hKept.globals.trans hInside.globals
  returns := by
    rw [hKept.function]
    exact hInside.returns

namespace Stmt

variable {g : Globals} {returns : Ty}

mutual

/- All statements inside one that is read are sound. -/
theorem Read.obeys
    (hNumbered : g.Numbered) :
    ∀ {c : Context} {st : Stmt} {c' : Context},
      st.Read c c' → c.Returning g returns →
      ∀ inner ∈ st.within, inner.Sound g returns
| _, _, _, .declaration _ _ hInitial _ _,
    ⟨hGlobals, _⟩ => by
    subst hGlobals
    rw [within]
    refine List.forall_mem_singleton.mpr ⟨trivial, ?_⟩
    rw [nodes, Place.nodes]
    exact List.forall_mem_cons.mpr
      ⟨trivial, hInitial.sound hNumbered⟩
| _, _, _, .assignment hTarget hValue _, ⟨hGlobals, _⟩ => by
    subst hGlobals
    rw [within]
    refine List.forall_mem_singleton.mpr ⟨trivial, ?_⟩
    exact List.forall_mem_append.mpr
      ⟨hTarget.obeys hNumbered, hValue.obeys hNumbered⟩
| _, _, _, .evaluation hCall hIsCall, ⟨hGlobals, _⟩ => by
    subst hGlobals
    rw [within]
    exact List.forall_mem_singleton.mpr
      ⟨hIsCall, hCall.obeys hNumbered⟩
| _, _, _, .returnNothing hFunction hVoid,
    ⟨_, hReturns⟩ => by
    rw [within]
    have hSame := hReturns _ hFunction
    exact List.forall_mem_singleton.mpr
      ⟨⟨hSame, hSame ▸ hVoid⟩, by simp [nodes]⟩
| _, _, _, .returnValue hFunction hVoid hValue hConverts,
    ⟨hGlobals, hReturns⟩ => by
    subst hGlobals
    rw [within]
    have hSame := hReturns _ hFunction
    exact List.forall_mem_singleton.mpr
      ⟨⟨hSame, hSame ▸ hVoid, hSame ▸ hConverts⟩,
        hValue.obeys hNumbered⟩
| _, _, _, .breakLoop _, _ => by
    rw [within]
    exact List.forall_mem_singleton.mpr
      ⟨trivial, by simp [nodes]⟩
| _, _, _, .empty, _ => by
    rw [within]
    exact List.forall_mem_singleton.mpr
      ⟨trivial, by simp [nodes]⟩
| _, _, _, .block hAll, hInside =>
    within_ofList_sound
      (hAll.obeys hNumbered
        ⟨hInside.globals, hInside.returns⟩) _
| _, _, _, .ifThen hCondition hIsCondition hBody,
    hInside => by
    rw [within]
    refine List.forall_mem_cons.mpr
      ⟨⟨hIsCondition, ?_⟩, hBody.obeys hNumbered hInside⟩
    cases hInside.globals
    exact hCondition.obeys hNumbered
| _, _, _, .ifElse hCondition hIsCondition hBody hOther,
    hInside => by
    rw [within]
    refine List.forall_mem_cons.mpr ⟨⟨hIsCondition, ?_⟩, ?_⟩
    · cases hInside.globals
      exact hCondition.obeys hNumbered
    · exact List.forall_mem_append.mpr
        ⟨hBody.obeys hNumbered hInside,
          hOther.obeys hNumbered (hInside.keep hBody.kept)⟩
| c, _, _, .whileLoop hCondition hIsCondition hBody,
    hInside => by
    have hLoop : c.enterLoop.Returning g returns :=
      ⟨hInside.globals, hInside.returns⟩
    rw [within]
    refine List.forall_mem_cons.mpr
      ⟨⟨hIsCondition, ?_⟩, hBody.obeys hNumbered hLoop⟩
    cases hInside.globals
    exact hCondition.obeys hNumbered
| c, _, _, .doWhile hBody hCondition hIsCondition,
    hInside => by
    have hLoop : c.enterLoop.Returning g returns :=
      ⟨hInside.globals, hInside.returns⟩
    rw [within]
    refine List.forall_mem_cons.mpr
      ⟨⟨hIsCondition, ?_⟩, hBody.obeys hNumbered hLoop⟩
    cases (hLoop.keep hBody.kept).globals
    exact hCondition.obeys hNumbered

theorem ReadAll.obeys
    (hNumbered : g.Numbered) :
    ∀ {c : Context} {sts : List Stmt} {c' : Context},
      ReadAll c sts c' → c.Returning g returns →
      ∀ st ∈ sts, ∀ inner ∈ st.within, inner.Sound g returns
| _, _, _, .nil, _ => by simp
| _, _, _, .cons hFirst hRest, hInside =>
    List.forall_mem_cons.mpr
      ⟨hFirst.obeys hNumbered hInside,
        hRest.obeys hNumbered (hInside.keep hFirst.kept)⟩

end

end Stmt

end Bracketry
