import Bracketry.Proofs.Stmt.Declaration
import Bracketry.Proofs.Stmt.Scoping

/-
  This file tells where variables stray that are read off a
  program.

  A variable is in sight up to the end of the block that it
  is declared in.  All of that block is behind its
  declaration, unless the declaration is itself a branch or
  the body of a loop, without a block of its own.

  Main declarations:
    * `Stmt.bare` and `Declarations.Covers`
    * `Stmt.Read.covered`
-/

namespace Bracketry

/- Certain inside of a branch, but not behind it. -/
def Declarations.lost
    (d inner : Declarations) : List Identifier :=
  inner.certain.filter fun x => x ∉ d.certain

mutual

/- Variables that a body declares without a block. -/
def Stmt.bare : Stmt → Declarations → List Identifier
| .sequence head tail, d =>
    head.bare d ++ Stmt.allBare tail (head.declare d)
| .ifThen _ body _, d =>
    body.bare d ++ d.lost (body.declare d)
| .ifElse _ body other _, d =>
    let between := d.behind (body.declare d)
    body.bare d ++ d.lost (body.declare d) ++
      (other.bare between ++
        between.lost (other.declare between))
| .whileLoop _ body _, d =>
    body.bare d ++ d.lost (body.declare d)
| .doWhile body _ _, d => body.bare d
| _, _ => []

/- The same of statements in a row. -/
def Stmt.allBare : List Stmt → Declarations →
    List Identifier
| [], _ => []
| st :: rest, d =>
    st.bare d ++ Stmt.allBare rest (st.declare d)

end

namespace Declarations

variable {base : Nat} {d inner : Declarations}
variable {loose more : List Identifier} {s s' : Scope}

/-
  All variables in sight are certain or loose, and none but
  those of the function are declared.
-/
structure Covers
    (base : Nat)
    (d : Declarations)
    (loose : List Identifier)
    (s : Scope) : Prop where
  seen : ∀ x, s.InSight x → x ∈ d.certain ∨ x ∈ loose
  held : ∀ x ∈ d.all, s.Holds base x

theorem mem_lost
    {x : Identifier} :
    x ∈ d.lost inner ↔ x ∈ inner.certain ∧
      x ∉ d.certain := by
  simp [lost]

namespace Covers

theorem weaken
    (h : d.Covers base loose s)
    (hLoose : ∀ x ∈ loose, x ∈ more) :
    d.Covers base more s :=
  ⟨fun x hSight => (h.seen x hSight).imp id (hLoose x),
    h.held⟩

/- What is not certain is loose. -/
theorem missing
    {xs : List Identifier}
    (h : d.Covers base loose s)
    (hSees : s.Sees xs) :
    ∀ x ∈ d.missing xs, x ∈ loose := by
  intro x hMem
  rcases mem_missing.mp hMem with ⟨hIn, hCertain⟩
  rcases hSees x hIn with ⟨_, hLookup⟩
  exact (h.seen x
    (Scope.inSight_of_lookup hLookup)).resolve_left hCertain

/- Storing in a variable in sight. -/
theorem add
    {x : Identifier}
    (h : d.Covers base loose s)
    (hHolds : s.Holds base x) :
    (d.add x).Covers base loose s := by
  unfold Declarations.add
  split
  · exact h
  · refine ⟨fun y hSight => ?_,
      List.forall_mem_cons.mpr ⟨hHolds, h.held⟩⟩
    exact (h.seen y hSight).imp (List.mem_cons_of_mem x) id

variable {name : String}

/- Declaring a variable. -/
theorem declare
    {x : Identifier}
    (h : d.Covers base loose s)
    (hLocal : s.Local base name)
    (hBound : ∀ k, s.current = some k →
      x.binding = .block name k)
    (hHolds : s'.Holds base x)
    (hOk : s.declare x = .ok s') :
    (d.add x).Covers base loose s' ∧ x ∉ d.all := by
  have hNew : x ∉ d.all := fun hMem =>
    hLocal.not_holds_of_declare hBound hOk (h.held x hMem)
  refine ⟨?_, hNew⟩
  unfold Declarations.add
  rw [if_neg hNew]
  constructor
  · intro y hSight
    rcases hLocal.inSight_of_declare hOk hSight with
      rfl | hOld
    · exact .inl List.mem_cons_self
    · exact (h.seen y hOld).imp (List.mem_cons_of_mem x) id
  · exact List.forall_mem_cons.mpr ⟨hHolds,
      fun y hMem => (Scope.Extends.declare hOk).holds
        (h.held y hMem)⟩

/- Behind a bare branch, what was certain in it is loose. -/
theorem behind
    (h : inner.Covers base loose s) :
    (d.behind inner).Covers base (loose ++ d.lost inner)
      s := by
  refine ⟨fun x hSight => ?_, h.held⟩
  rcases h.seen x hSight with hCertain | hLoose
  · by_cases hBefore : x ∈ d.certain
    · exact .inl hBefore
    · exact .inr (List.mem_append_right _
        (mem_lost.mpr ⟨hCertain, hBefore⟩))
  · exact .inr (List.mem_append_left _ hLoose)

/- Behind a block, its variables are out of sight. -/
theorem block
    (h : d.Covers base loose s)
    (hLocal : s.Local base name)
    (hInside : s.enter.2.Extends s')
    (hInner : inner.Covers base more s') :
    (d.behind inner).Covers base loose s'.leave := by
  refine ⟨fun x hSight => h.seen x ?_, hInner.held⟩
  exact hLocal.inSight_of_frames
    (Scope.Extends.block hInside).current
    (fun _ _ hFrame => Scope.Extends.getElem?_block hInside
      hFrame) hSight

/- Into a block, nothing else comes into sight. -/
theorem enter
    (h : d.Covers base loose s)
    (hLocal : s.Local base name) :
    d.Covers base loose s.enter.2 := by
  refine ⟨fun x hSight =>
    h.seen x (hLocal.inSight_of_enter hSight), ?_⟩
  intro x hMem
  rcases h.held x hMem with ⟨k, frame, hBase, hFrame, hIn⟩
  exact ⟨k, frame, hBase,
    Scope.Extends.getElem?_enter hFrame, hIn⟩

end Covers

end Declarations

------------------------------------------------------------
-- Variables that Stray
------------------------------------------------------------

namespace Stmt

open Declarations

variable {base : Nat} {name : String}

/-
  What is shown of a statement before which the variables in
  `loose` may stray.
-/
structure Covered
    (base : Nat)
    (d : Declarations)
    (loose : List Identifier)
    (s' : Scope)
    (st : Stmt) : Prop where
  covers : (st.declare d).Covers base (loose ++ st.bare d)
    s'
  stray : ∀ x ∈ st.strays d, x ∈ loose ++ st.bare d

/- The same of statements in a row. -/
structure AllCovered
    (base : Nat)
    (d : Declarations)
    (loose : List Identifier)
    (s' : Scope)
    (sts : List Stmt) : Prop where
  covers : (declareAll sts d).Covers base
    (loose ++ allBare sts d) s'
  stray : ∀ x ∈ allStrays sts d, x ∈ loose ++ allBare sts d

section

variable {d : Declarations} {loose : List Identifier}
variable {s s' : Scope}

/- A statement that only mentions some variables. -/
theorem covered_of_missing
    {st : Stmt}
    {xs : List Identifier}
    (hDeclare : st.declare d = d)
    (hBare : st.bare d = [])
    (hStrays : st.strays d = d.missing xs)
    (hCovers : d.Covers base loose s)
    (hSees : s.Sees xs) :
    st.Covered base d loose s := by
  constructor
  · rw [hDeclare, hBare, List.append_nil]
    exact hCovers
  · rw [hStrays, hBare, List.append_nil]
    exact hCovers.missing hSees

/- Storing in a whole variable, or in a part of one. -/
theorem assign_covered
    {target : Place}
    {value : Expr}
    (hCovers : d.Covers base loose s)
    (hLocal : s.Local base name)
    (hTarget : target.Read s)
    (hValue : value.Read s)
    (line : Nat) :
    (Stmt.assign target value line).Covered base d
      loose s := by
  have hSees := Scope.sees_append hTarget.sees hValue.sees
  cases target with
  | element parent index t =>
      exact covered_of_missing rfl rfl rfl hCovers hSees
  | member parent position member t =>
      exact covered_of_missing rfl rfl rfl hCovers hSees
  | var x =>
      have hSeen := hTarget.sees
      rw [Place.variables] at hSeen
      rcases List.forall_mem_singleton.mp hSeen with
        ⟨_, hLookup⟩
      constructor
      · rw [declare, bare, List.append_nil]
        exact hCovers.add (hLocal.holds_of_lookup hLookup)
        all_goals simp
      · rw [strays, bare, List.append_nil]
        refine List.forall_mem_append.mpr
          ⟨hCovers.missing hValue.sees, ?_⟩
        · split
          · exact hCovers.missing hSeen
          · simp
        all_goals simp

/- A bare branch or loop body behind a condition. -/
theorem branch_covered
    {condition : Expr}
    {body st : Stmt}
    (hDeclare : st.declare d = d.behind (body.declare d))
    (hBare : st.bare d = body.bare d ++
      d.lost (body.declare d))
    (hStrays :
      st.strays d = d.missing condition.variables ++
        body.strays d)
    (hCovers : d.Covers base loose s)
    (hCondition : condition.Read s)
    (hBody : body.Covered base d loose s') :
    st.Covered base d loose s' := by
  constructor
  · rw [hDeclare, hBare, ← List.append_assoc]
    exact hBody.covers.behind
  · rw [hStrays, hBare, ← List.append_assoc]
    refine List.forall_mem_append.mpr ⟨?_, ?_⟩
    · intro x hMem
      have hLoose := hCovers.missing hCondition.sees x hMem
      exact List.mem_append_left _
        (List.mem_append_left _ hLoose)
    · exact fun x hMem =>
        List.mem_append_left _ (hBody.stray x hMem)

theorem AllCovered.cons
    {st : Stmt}
    {rest : List Stmt}
    (hFirst : st.Covered base d loose s)
    (hRest :
      AllCovered base (st.declare d) (loose ++ st.bare d)
        s' rest) :
    AllCovered base d loose s' (st :: rest) := by
  constructor
  · rw [declareAll, allBare, ← List.append_assoc]
    exact hRest.covers
  · rw [allStrays, allBare, ← List.append_assoc]
    refine List.forall_mem_append.mpr ⟨?_, hRest.stray⟩
    exact fun x hMem =>
      List.mem_append_left _ (hFirst.stray x hMem)

/- Statements in a block of their own. -/
theorem block_covered
    {sts : List Stmt}
    (hCovers : d.Covers base loose s)
    (hLocal : s.Local base name)
    (hInside : s.enter.2.Extends s')
    (hAll : AllCovered base d loose s' sts)
    (line : Nat) :
    (ofList sts line).Covered base d loose s'.leave := by
  have hBehind := hCovers.block hLocal hInside hAll.covers
  cases sts with
  | nil =>
      exact covered_of_missing rfl rfl rfl hBehind
        (Scope.sees_nil _)
  | cons head tail =>
      constructor
      · rw [ofList, declare]
        exact hBehind.weaken fun x hMem =>
          List.mem_append_left _ hMem
      · rw [ofList, strays, bare]
        exact hAll.stray

end

mutual

/-
  Whatever is in sight but not certain was declared bare.
  The induction follows what is known while statements are
  read.
-/
theorem Read.covered :
    ∀ {c : Context} {st : Stmt} {c' : Context}
      {d : Declarations} {loose : List Identifier},
      st.Read c c' → c.Inside base name →
      d.Covers base loose c.scope →
      st.Covered base d loose c'.scope
| c, _, _, d, loose, .declaration _ _ hInitial hFunction
    hDeclare, hInside, hCovers => by
    have hHolds :=
      (inside_of_declare hInside hFunction rfl hDeclare).2
    rcases hCovers.declare hInside.scope
        (blockBinding_eq hInside hFunction) hHolds
          hDeclare with
      ⟨hBehind, hNew⟩
    constructor
    · rw [declare, bare, List.append_nil]
      exact hBehind
      all_goals simp
    · rw [strays, bare, List.append_nil, if_neg hNew,
        List.append_nil]
      exact hCovers.missing hInitial.sees
      all_goals simp
| _, _, _, _, _, .assignment hTarget hValue _, hInside,
    hCovers =>
      assign_covered hCovers hInside.scope hTarget hValue _
| _, _, _, _, _, .evaluation hCall _, _, hCovers =>
    covered_of_missing rfl rfl rfl hCovers hCall.sees
| _, _, _, _, _, .returnNothing _ _, _, hCovers =>
    covered_of_missing rfl rfl rfl hCovers
      (Scope.sees_nil _)
| _, _, _, _, _, .returnValue _ _ hValue _, _, hCovers =>
    covered_of_missing rfl rfl rfl hCovers hValue.sees
| _, _, _, _, _, .breakLoop _, _, hCovers =>
    covered_of_missing rfl rfl rfl hCovers
      (Scope.sees_nil _)
| _, _, _, _, _, .empty, _, hCovers =>
    covered_of_missing rfl rfl rfl hCovers
      (Scope.sees_nil _)
| c, _, _, d, _, .block hAll, hInside, hCovers => by
    have hEnter : c.enter.Inside base name :=
      ⟨hInside.scope.enter, hInside.function⟩
    have hStart : d.Covers base _ c.enter.scope :=
      hCovers.enter hInside.scope
    exact block_covered hCovers hInside.scope hAll.extends
      (hAll.covered hEnter hStart) _
| _, _, _, _, _, .ifThen hCondition _ hBody, hInside,
    hCovers =>
      branch_covered rfl rfl rfl hCovers hCondition
        (hBody.covered hInside hCovers)
| _, _, _, d, loose, @Read.ifElse _ _ _ condition body other
    _ hCondition _ hBody hOther, hInside, hCovers => by
    have hFirst : (Stmt.ifThen condition body 0).Covered
      base d loose _ :=
      branch_covered rfl rfl rfl hCovers hCondition
        (hBody.covered hInside hCovers)
    have hSecond :=
      hOther.covered (hBody.inside hInside) hFirst.covers
    constructor
    · rw [declare, bare, ← List.append_assoc,
        ← List.append_assoc]
      exact hSecond.covers.behind
    · rw [strays, bare, ← List.append_assoc,
        ← List.append_assoc]
      refine List.forall_mem_append.mpr ⟨?_, ?_⟩
      · exact fun x hMem => List.mem_append_left _
          (List.mem_append_left _ (hFirst.stray x hMem))
      · exact fun x hMem =>
          List.mem_append_left _ (hSecond.stray x hMem)
| c, _, _, _, _, .whileLoop hCondition _ hBody, hInside,
    hCovers => by
    have hEnter : c.enterLoop.Inside base name :=
      ⟨hInside.scope, hInside.function⟩
    exact branch_covered rfl rfl rfl hCovers hCondition
      (hBody.covered hEnter hCovers)
| c, _, _, _, _, .doWhile hBody hCondition _, hInside,
    hCovers => by
    have hEnter : c.enterLoop.Inside base name :=
      ⟨hInside.scope, hInside.function⟩
    have hFirst := hBody.covered hEnter hCovers
    constructor
    · rw [declare, bare]
      exact hFirst.covers
    · rw [strays, bare]
      exact List.forall_mem_append.mpr
        ⟨hFirst.stray,
          hFirst.covers.missing hCondition.sees⟩

theorem ReadAll.covered :
    ∀ {c : Context} {sts : List Stmt} {c' : Context}
      {d : Declarations} {loose : List Identifier},
      ReadAll c sts c' → c.Inside base name →
      d.Covers base loose c.scope →
      AllCovered base d loose c'.scope sts
| _, _, _, _, _, .nil, _, hCovers => by
    constructor
    · rw [declareAll, allBare, List.append_nil]
      exact hCovers
    · simp [allStrays]
| _, _, _, _, _, .cons hFirst hRest, hInside, hCovers => by
    have hOne := hFirst.covered hInside hCovers
    exact .cons hOne
      (hRest.covered (hFirst.inside hInside) hOne.covers)

end

end Stmt

end Bracketry
