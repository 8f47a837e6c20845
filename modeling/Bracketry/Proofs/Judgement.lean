import Bracketry.Proofs.Discipline
import Mathlib.Data.List.Forall2

/-
  This file says what a judgement about typed code is: a
  property of steps that tells what their operands are.

  It speaks of what is known when a step starts and behind
  it, with a rule for each elementary step.  What it asks of
  the nodes of a tree is said apart from it, with one rule
  for each kind of node.  Expressions are then followed
  once, for all judgements.

  Main declarations:
    * `Build.Judgement`
    * `Lowering.Follows`
    * `Expr.lower_follows`
-/

namespace Bracketry

namespace Build

/- The rules for steps.  A judgement may forbid faults. -/
structure Judgement where
  Known : Type
  Grows : Known → Known → Prop
  MayFail : Prop
  Holds : {α : Type} → Known → (α → Known → Prop) →
    Build α → Prop
  Is : Known → Ty → Value → Prop
  Legal : Known → Instruction → Prop
  Defines : Known → Ty → (Nat → Instruction) → Prop
  inside : Label → Known → Known
  Breaks : Known → Prop
  trans : ∀ {k k₁ k₂ : Known}, Grows k k₁ → Grows k₁ k₂ →
    Grows k k₂
  weaken : ∀ {k k' : Known} {t : Ty} {v : Value},
    Grows k k' → Is k t v → Is k' t v
  int : ∀ {k : Known} {t : Ty} (n : Int), t.IsIntegral →
    Is k t (.int n t)
  float : ∀ {k : Known} (x : Double),
    Is k .float (.float x .float)
  bool : ∀ {k : Known} (x : Bool),
    Is k .bool (.bool x .bool)
  pure :
    ∀ {α : Type} {k : Known} {Q : α → Known → Prop} {a : α},
    (∀ k', Grows k k' → Q a k') → Holds k Q (pure a)
  throw : ∀ {α : Type} {k : Known} {Q : α → Known → Prop},
    MayFail → ∀ fault, Holds k Q (throw fault)
  bind : ∀ {α β : Type} {k : Known} {Q : α → Known → Prop}
    {R : β → Known → Prop} {x : Build α} {f : α → Build β},
    Holds k Q x →
      (∀ a k', Grows k k' → Q a k' → Holds k' R (f a)) →
    Holds k R (x >>= f)
  getBind : ∀ {α : Type} {k : Known} {Q : α → Known → Prop}
    {f : Builder → Build α}, (∀ b, Holds k Q (f b)) →
      Holds k Q (get >>= f)
  label : ∀ {k : Known}, Holds k (fun _ _ => True)
    Build.label
  place : ∀ {k : Known} (l : Label),
    Holds k (fun _ _ => True) (Build.place l)
  jump : ∀ {k : Known} (l : Label),
    Holds k (fun _ _ => True) (Build.jump l)
  branch :
    ∀ {k : Known} {v : Value}
      (onTrue onFalse : Option Label),
    Is k .bool v →
      Holds k (fun _ _ => True)
        (Build.branch v onTrue onFalse)
  append : ∀ {k : Known} {i : Instruction},
    Legal k i → Holds k (fun _ _ => True) (Build.append i)
  define : ∀ {k : Known} {t : Ty} {i : Nat → Instruction},
    Defines k t i →
      Holds k (fun v k' => Is k' t v) (Build.define t i)
  merge : ∀ {k : Known} (onTrue onFalse : Label),
    Defines k .bool fun dest => .merge dest onTrue onFalse
  insideLoop :
    ∀ {k : Known} {exit : Label} {x : Build Unit},
    Holds (inside exit k) (fun _ _ => True) x →
    Holds k (fun _ _ => True) (Build.insideLoop exit x)
  breaks : ∀ (exit : Label) (k : Known),
    Breaks (inside exit k)
  breaking : ∀ {k k' : Known}, Grows k k' → Breaks k →
    Breaks k'
  leave : ∀ {k : Known} (line : Nat),
    Breaks k →
      Holds k (fun _ _ => True) (Stmt.lowerBreak line)

namespace Judgement

/- A step whose result does not matter. -/
abbrev Keeps
    (J : Judgement)
    {α : Type}
    (k : J.Known)
    (x : Build α) : Prop :=
  J.Holds k (fun _ _ => True) x

/- A step that gives an operand of a type. -/
abbrev Offers
    (J : Judgement)
    (k : J.Known)
    (t : Ty)
    (x : Build Value) : Prop :=
  J.Holds k (fun v k' => J.Is k' t v) x

/-
  The rules for nodes: places and expressions of certain
  kinds, where an expression may be asked for in certain
  types.
-/
structure Covers
    (J : Judgement)
    (places : Place → Prop)
    (exprs : Expr → Prop)
    (asks : Expr → Ty → Prop) : Prop where
  slot : ∀ {x : Identifier}, places (.var x) → ∀ k,
    J.Holds k (fun _ k' =>
        J.Is k' (.pointer x.ty)
          (.named x.storage (.pointer x.ty)))
      (Build.allocate x.storage x.ty)
  element : ∀ {parent : Place} {index : Expr} {t : Ty},
    places (.element parent index t) →
    places parent ∧ exprs index ∧ asks index .int ∧
      ∀ {k base position}, J.Is k (.pointer parent.ty)
        base → J.Is k .int position →
        J.Defines k (.pointer t) fun dest =>
          .element dest parent.ty base position t
  member :
    ∀ {parent : Place} {position : Nat} {name : String}
      {t : Ty},
    places (.member parent position name t) →
    places parent ∧
      ∀ {k base}, J.Is k (.pointer parent.ty) base →
        J.Defines k (.pointer t) fun dest =>
          .element dest parent.ty base (.int position .int)
            t
  kept : ∀ {e : Expr} {u : Ty} {k : J.Known} {v : Value},
    exprs e → ¬ e.IsArrayLiteral → asks e u →
      J.Is k e.ty v → v.ty = u → J.Is k u v
  converted :
    ∀ {e : Expr} {u : Ty} {k : J.Known} {v : Value}
    {how : Conversion}, exprs e → ¬ e.IsArrayLiteral →
      asks e u →
    J.Is k e.ty v → v.ty ≠ u →
      Conversion.between? v.ty u = some how →
    J.Defines k u fun dest => .convert dest how v u
  refused : ∀ {e : Expr} {u : Ty} {k : J.Known} {v : Value},
    exprs e → ¬ e.IsArrayLiteral → asks e u →
      J.Is k e.ty v → v.ty ≠ u →
    Conversion.between? v.ty u = none → J.MayFail
  int : ∀ {n : Int} {t : Ty} {line : Nat},
    exprs (.int n t line) → (∀ k, J.Is k t (.int n t)) ∧
      ∀ u, asks (.int n t line) u → J.MayFail ∨ u.IsNumeric
  float : ∀ {x : Double} {line : Nat},
    exprs (.float x line) →
    ∀ u, asks (.float x line) u → J.MayFail ∨ u.IsNumeric
  zero : ∀ {t : Ty} {line : Nat}, exprs (.zero t line) →
    ∀ k, J.Is k t (.zero t)
  array : ∀ {elements : List Expr} {t : Ty} {line : Nat},
    exprs (.array elements t line) →
    (∀ e ∈ elements, exprs e) ∧
      ∀ u, asks (.array elements t line) u →
        (u.element? = none → J.MayFail) ∧
        ∀ w, u.element? = some w →
          (∀ e ∈ elements, asks e w) ∧
          ∀ k values, values.length = elements.length →
            (∀ v ∈ values, J.Is k w v) →
              J.Is k u (.array values u)
  read : ∀ {place : Place} {line : Nat},
    exprs (.read place line) → places place ∧
      ∀ {k address}, J.Is k (.pointer place.ty) address →
        J.Defines k place.ty fun dest =>
          .load dest place.ty address
  arithmetic :
    ∀ {op : Arithmetic} {left right : Expr} {t : Ty}
    {line : Nat}, exprs (.arithmetic op left right t line) →
    exprs left ∧ exprs right ∧ asks left t ∧ asks right t ∧
      ∀ {k a b}, J.Is k t a → J.Is k t b →
        J.Defines k t fun dest => .arithmetic dest op t a b
  negate : ∀ {operand : Expr} {t : Ty} {line : Nat},
    exprs (.negate operand t line) →
    exprs operand ∧ asks operand operand.ty ∧
      ∀ {k v}, J.Is k operand.ty v →
        J.Defines k t fun dest => .negate dest t v
  call :
    ∀ {callee : Identifier} {prototype : Nat}
      {args : List Expr}
    {params : List Ty} {t : Ty} {line : Nat},
    exprs (.call callee prototype args params t line) →
    (∀ e ∈ args, exprs e) ∧
      (∀ pair ∈ args.zip params, asks pair.1 pair.2) ∧
      ∀ {k values},
        List.Forall₂ (fun pair v => J.Is k pair.2 v)
          (args.zip params) values →
        (t = .void →
          J.Legal k (.call none t callee.storage values) ∧
          ∀ k', J.Is k' t (.void t)) ∧
        (t ≠ .void → J.Defines k t fun dest =>
          .call (some dest) t callee.storage values)
  compare :
    ∀ {op : Comparison} {left right : Expr} {line : Nat},
    exprs (.compare op left right line) →
    exprs left ∧ exprs right ∧
      (∀ fault, Lowering.comparedAs left.ty right.ty line =
        .error fault → J.MayFail) ∧
      ∀ t, Lowering.comparedAs left.ty right.ty line =
        .ok t → asks left t ∧ asks right t ∧
        ∀ {k a b}, J.Is k t a → J.Is k t b →
          J.Defines k .bool fun dest =>
            .compare dest op t a b
  and : ∀ {left right : Expr} {line : Nat},
    exprs (.and left right line) →
    exprs left ∧ exprs right ∧ asks left .bool ∧
      asks right .bool
  or : ∀ {left right : Expr} {line : Nat},
    exprs (.or left right line) →
    exprs left ∧ exprs right ∧ asks left .bool ∧
      asks right .bool
  not : ∀ {operand : Expr} {line : Nat},
    exprs (.not operand line) →
    exprs operand ∧ asks operand .bool

end Judgement

end Build

open Build (Judgement)

variable {J : Judgement}

namespace Value

variable {folded : Value} {k : J.Known} {t : Ty}

/- A literal is folded to the type asked for. -/
theorem is_of_ofInt?
    {n : Int}
    {source target : Ty}
    (hFolded : ofInt? n source target = some folded) :
    J.Is k target folded := by
  unfold ofInt? at hFolded
  split at hFolded <;> cases hFolded
  · exact J.float _
  · exact J.int _ trivial
  · exact J.int _ trivial

theorem is_of_ofFloat?
    {x : Double}
    {target : Ty}
    (hFolded : ofFloat? x target = some folded) :
    J.Is k target folded := by
  unfold ofFloat? at hFolded
  split at hFolded <;> cases hFolded
  · exact J.float _
  · exact J.int _ trivial
  · exact J.int _ trivial

/- It is folded to every numeric type. -/
theorem ofInt?_isSome
    (hNumeric : t.IsNumeric)
    (n : Int)
    (source : Ty) :
    (ofInt? n source t).isSome := by
  rcases (Ty.isNumeric_iff t).mp hNumeric with
    rfl | rfl | rfl
  all_goals rfl

theorem ofFloat?_isSome
    (hNumeric : t.IsNumeric)
    (x : Double) :
    (ofFloat? x t).isSome := by
  rcases (Ty.isNumeric_iff t).mp hNumeric with
    rfl | rfl | rfl
  all_goals rfl

end Value

/- Arguments have the types of parameters. -/
theorem Build.Judgement.is_of_mem
    {k : J.Known}
    {pairs : List (Expr × Ty)}
    {values : List Value}
    (hValues : List.Forall₂ (fun pair v => J.Is k pair.2 v)
      pairs values) :
    ∀ v ∈ values, ∃ pair ∈ pairs, J.Is k pair.2 v := by
  induction hValues with
  | nil => simp
  | @cons pair v _ _ hFirst _ ih =>
      refine List.forall_mem_cons.mpr
        ⟨⟨pair, List.mem_cons_self, hFirst⟩,
          fun other hMem => ?_⟩
      rcases ih other hMem with ⟨pair', hPair, hIs⟩
      exact ⟨pair', List.mem_cons_of_mem _ hPair, hIs⟩

------------------------------------------------------------
-- Uses of an Expression
------------------------------------------------------------

/- All three uses of an expression follow a judgement. -/
structure Lowering.Follows
    (J : Judgement)
    (asks : Expr → Ty → Prop)
    (e : Expr)
    (lowering : Lowering) : Prop where
  reduce : asks e e.ty →
    ∀ k, J.Offers k e.ty lowering.reduce
  convert : ∀ k u, asks e u →
    J.Offers k u (lowering.convert u)
  branches : asks e .bool → ∀ k onTrue onFalse,
    J.Keeps k (lowering.branches onTrue onFalse)

namespace Lowering

variable {places : Place → Prop} {exprs : Expr → Prop}
variable {asks : Expr → Ty → Prop} {e : Expr}
variable {reduce : Build Value}
variable {branches left right : Choice}
variable {lowerings : List Lowering} {es : List Expr}

theorem ofConvert_follows
    {convert : Ty → Build Value}
    (hReduce : asks e e.ty → ∀ k, J.Offers k e.ty reduce)
    (hConvert : ∀ k u,
      asks e u → J.Offers k u (convert u)) :
    (ofConvert reduce convert).Follows J asks e where
  reduce := hReduce
  convert := hConvert
  branches := fun hAsks k onTrue onFalse =>
    J.bind (hConvert k .bool hAsks) fun _ _ _ =>
      J.branch onTrue onFalse

theorem ofLiteral_follows
    {value : Value}
    {fold : Ty → Option Value}
    (hValue : ∀ k, J.Is k e.ty value)
    (hFold : ∀ u folded, fold u = some folded → ∀ k,
      J.Is k u folded)
    (hSome : ∀ u, asks e u → J.MayFail ∨ (fold u).isSome)
    (line : Nat) :
    (ofLiteral value fold line).Follows J asks e := by
  refine ofConvert_follows
    (fun _ _ => J.pure fun k' _ => hValue k')
    fun k u hAsks => ?_
  cases hFolded : fold u with
  | some folded =>
      exact J.pure fun k' _ => hFold u folded hFolded k'
  | none =>
      have hFail :=
        (hSome u hAsks).resolve_right (by simp [hFolded])
      exact J.throw hFail _

/- An operand is kept, or converted by one instruction. -/
theorem ofReduce_follows
    (hCovers : J.Covers places exprs asks)
    (hExpr : exprs e)
    (hLiteral : ¬ e.IsArrayLiteral)
    (hReduce : ∀ k, J.Offers k e.ty reduce)
    (line : Nat) :
    (ofReduce reduce line).Follows J asks e := by
  refine ofConvert_follows (fun _ => hReduce)
    fun k u hAsks => ?_
  refine J.bind (hReduce k) fun v k' _ hValue => ?_
  unfold Build.convertValue
  by_cases hSame : v.ty = u
  · simp only [hSame, if_true]
    exact J.pure fun _ hGrows => J.weaken hGrows
      (hCovers.kept hExpr hLiteral hAsks hValue hSame)
  · simp only [hSame, if_false]
    cases hHow : Conversion.between? v.ty u with
    | some how =>
        exact J.define
          (hCovers.converted hExpr hLiteral hAsks hValue
            hSame hHow)
    | none =>
        have hFail :=
          hCovers.refused hExpr hLiteral hAsks hValue
            hSame hHow
        exact J.throw hFail _

theorem withBranches_follows
    (hCovers : J.Covers places exprs asks)
    (hExpr : exprs e)
    (hLiteral : ¬ e.IsArrayLiteral)
    (hReduce : ∀ k, J.Offers k e.ty reduce)
    (hBranches : ∀ k onTrue onFalse,
      J.Keeps k (branches onTrue onFalse))
    (line : Nat) :
    (withBranches reduce branches line).Follows J asks e :=
  { ofReduce_follows hCovers hExpr hLiteral hReduce
    line with
    branches := fun _ => hBranches }

theorem merge_offers
    (hBranches : ∀ k onTrue onFalse,
      J.Keeps k (branches onTrue onFalse))
    (k : J.Known) :
    J.Offers k .bool (merge branches) := by
  refine J.bind J.label fun onTrue _ _ _ => ?_
  refine J.bind J.label fun onFalse _ _ _ => ?_
  refine J.bind J.label fun done _ _ _ => ?_
  refine J.bind (hBranches _ (some onTrue) (some onFalse))
    fun _ _ _ _ => ?_
  refine J.bind (J.place onTrue) fun _ _ _ _ => ?_
  refine J.bind (J.jump done) fun _ _ _ _ => ?_
  refine J.bind (J.place onFalse) fun _ _ _ _ => ?_
  refine J.bind (J.jump done) fun _ _ _ _ => ?_
  refine J.bind (J.place done) fun _ _ _ _ => ?_
  exact J.define (J.merge onTrue onFalse)

/- A choice as an operand, and as the choice that it is. -/
theorem mergeBranches_follows
    (hCovers : J.Covers places exprs asks)
    (hExpr : exprs e)
    (hLiteral : ¬ e.IsArrayLiteral)
    (hBool : e.ty = .bool)
    (hBranches : ∀ k onTrue onFalse,
      J.Keeps k (branches onTrue onFalse))
    (line : Nat) :
    (withBranches (merge branches) branches line).Follows J
      asks e :=
  withBranches_follows hCovers hExpr hLiteral
    (hBool ▸ merge_offers hBranches) hBranches line

theorem settled_keeps
    (value : Bool)
    (k : J.Known)
    (onTrue onFalse : Option Label) :
    J.Keeps k (settled value onTrue onFalse) := by
  unfold settled
  cases (if value then onTrue else onFalse) with
  | some label => exact J.jump label
  | none => exact J.pure fun _ _ => trivial

theorem both_keeps
    (hLeft : ∀ k onTrue onFalse,
      J.Keeps k (left onTrue onFalse))
    (hRight : ∀ k onTrue onFalse,
      J.Keeps k (right onTrue onFalse))
    (k : J.Known)
    (onTrue onFalse : Option Label) :
    J.Keeps k (both left right onTrue onFalse) := by
  cases onFalse with
  | some exit =>
      exact J.bind (hLeft ..) fun _ _ _ _ => hRight ..
  | none =>
      refine J.bind J.label fun exit _ _ _ => ?_
      refine J.bind (hLeft ..) fun _ _ _ _ => ?_
      exact J.bind (hRight ..) fun _ _ _ _ => J.place exit

theorem either_keeps
    (hLeft : ∀ k onTrue onFalse,
      J.Keeps k (left onTrue onFalse))
    (hRight : ∀ k onTrue onFalse,
      J.Keeps k (right onTrue onFalse))
    (k : J.Known)
    (onTrue onFalse : Option Label) :
    J.Keeps k (either left right onTrue onFalse) := by
  rw [either_eq_both]
  exact both_keeps (fun k t f => hLeft k f t)
    (fun k t f => hRight k f t) k onFalse onTrue

/- Each operand is of the type that it is asked for in. -/
theorem convertEach_holds
    (hArgs : List.Forall₂ (Follows J asks) es lowerings)
    {params : List Ty}
    (hAsks : ∀ pair ∈ es.zip params, asks pair.1 pair.2)
    (k : J.Known) :
    J.Holds k
      (fun values k' =>
        List.Forall₂ (fun pair v => J.Is k' pair.2 v)
        (es.zip params) values)
      (convertEach lowerings params) := by
  induction hArgs generalizing params k with
  | nil => exact J.pure fun _ _ => .nil
  | cons hArg _ ih =>
      cases params with
      | nil => exact J.pure fun _ _ => .nil
      | cons param params =>
          rcases List.forall_mem_cons.mp hAsks with
            ⟨hFirst, hRest⟩
          refine J.bind (hArg.convert k param hFirst)
            fun v k' _ hValue => ?_
          refine J.bind (ih hRest k')
            fun values k'' hGrows hValues => ?_
          refine J.pure fun _ hMore =>
            .cons ?_ (hValues.imp fun _ _ => ?_)
          · exact J.weaken hMore (J.weaken hGrows hValue)
          · exact J.weaken hMore

theorem convertAll_holds
    (hElements : List.Forall₂ (Follows J asks) es lowerings)
    {t : Ty}
    (hAsks : ∀ e ∈ es, asks e t)
    (k : J.Known) :
    J.Holds k
      (fun values k' => values.length = es.length ∧
        ∀ v ∈ values, J.Is k' t v)
      (convertAll t lowerings) := by
  induction hElements generalizing k with
  | nil =>
      exact J.pure fun _ _ => ⟨rfl, List.forall_mem_nil _⟩
  | cons hElement _ ih =>
      rcases List.forall_mem_cons.mp hAsks with
        ⟨hFirst, hRest⟩
      refine J.bind (hElement.convert k t hFirst)
        fun v k' _ hValue => ?_
      refine J.bind (ih hRest k')
        fun values k'' hGrows hValues => ?_
      refine J.pure fun _ hMore =>
        ⟨congrArg Nat.succ hValues.1, ?_⟩
      exact List.forall_mem_cons.mpr
        ⟨J.weaken hMore (J.weaken hGrows hValue),
          fun other hMem =>
            J.weaken hMore (hValues.2 other hMem)⟩

end Lowering

------------------------------------------------------------
-- Expressions
------------------------------------------------------------

section

variable {places : Place → Prop} {exprs : Expr → Prop}
variable {asks : Expr → Ty → Prop}

mutual

/- An address points to a value of the type of the place. -/
theorem Place.address_follows
    (hCovers : J.Covers places exprs asks) :
    ∀ place : Place, places place →
      ∀ k, J.Offers k (.pointer place.ty) place.address
| .var x, hPlace, k => by
    rw [Place.address]
    refine J.bind (hCovers.slot hPlace k) fun _ _ _ hSlot =>
      ?_
    exact J.pure fun _ hGrows => J.weaken hGrows hSlot
| .element parent index t, hPlace, k => by
    rcases hCovers.element hPlace with
      ⟨hParent, hIndex, hAsks, hElement⟩
    rw [Place.address]
    refine J.bind
      (Place.address_follows hCovers parent hParent k)
      fun base k' _ hBase => ?_
    refine J.bind
      ((Expr.lower_follows hCovers index hIndex).convert k'
        .int
      hAsks) fun position _ hGrows hPosition => ?_
    exact J.define
      (hElement (J.weaken hGrows hBase) hPosition)
| .member parent position name t, hPlace, k => by
    rcases hCovers.member hPlace with ⟨hParent, hMember⟩
    rw [Place.address]
    refine J.bind
      (Place.address_follows hCovers parent hParent k)
      fun base _ _ hBase => ?_
    exact J.define (hMember hBase)

/- Operands have the types they are asked for in. -/
theorem Expr.lower_follows
    (hCovers : J.Covers places exprs asks) :
    ∀ e : Expr, exprs e → e.lower.Follows J asks e
| .int n t line, hExpr => by
    rcases hCovers.int hExpr with ⟨hValue, hAsks⟩
    rw [Expr.lower]
    exact Lowering.ofLiteral_follows hValue
      (fun _ _ hFolded _ => Value.is_of_ofInt? hFolded)
      (fun u hAsk => (hAsks u hAsk).imp_right
        (Value.ofInt?_isSome · n t))
      line
| .float x line, hExpr => by
    rw [Expr.lower]
    exact Lowering.ofLiteral_follows (fun _ => J.float x)
      (fun _ _ hFolded _ => Value.is_of_ofFloat? hFolded)
      (fun u hAsk =>
        (hCovers.float hExpr u hAsk).imp_right
          (Value.ofFloat?_isSome · x))
      line
| .boolean value line, hExpr => by
    rw [Expr.lower]
    exact Lowering.withBranches_follows hCovers hExpr id
      (fun _ => J.pure fun _ _ => J.bool value)
      (Lowering.settled_keeps value) line
| .zero t line, hExpr => by
    rw [Expr.lower]
    exact Lowering.ofReduce_follows hCovers hExpr id
      (fun _ => J.pure fun k' _ => hCovers.zero hExpr k')
        line
| .array elements t line, hExpr => by
    rcases hCovers.array hExpr with ⟨hElements, hArray⟩
    have hAll :=
      Expr.lowerAll_follows hCovers elements hElements
    have hConvert : ∀ k u, asks (.array elements t line) u →
        J.Offers k u
          (Lowering.array (Expr.lowerAll elements) t
            line u) := by
      intro k u hAsks
      rcases hArray u hAsks with ⟨hFail, hParts⟩
      unfold Lowering.array
      split
      · rename_i hNone
        exact J.throw (hFail hNone) _
      · rename_i w hSome
        rcases hParts w hSome with ⟨hEach, hWhole⟩
        refine J.bind
          (Lowering.convertAll_holds hAll hEach k)
          fun values k' _ hValues => ?_
        exact J.pure fun k'' hGrows =>
          hWhole k'' values hValues.1
          fun v hMem => J.weaken hGrows (hValues.2 v hMem)
    rw [Expr.lower]
    exact Lowering.ofConvert_follows
      (fun hAsks k => hConvert k t hAsks) hConvert
| .read place line, hExpr => by
    rcases hCovers.read hExpr with ⟨hPlace, hLoad⟩
    rw [Expr.lower]
    refine Lowering.ofReduce_follows hCovers hExpr id
      (fun k => ?_) line
    refine J.bind
      (Place.address_follows hCovers place hPlace k)
      fun address _ _ hAddress => ?_
    exact J.define (hLoad hAddress)
| .arithmetic op left right t line, hExpr => by
    rcases hCovers.arithmetic hExpr with
      ⟨hLeft, hRight, hAsks, hAsks', hOperation⟩
    rw [Expr.lower]
    refine Lowering.ofReduce_follows hCovers hExpr id
      (fun k => ?_) line
    refine J.bind
      ((Expr.lower_follows hCovers left hLeft).convert k t
      hAsks) fun a k' _ hFirst => ?_
    refine J.bind
      ((Expr.lower_follows hCovers right hRight).convert k'
        t
      hAsks') fun b _ hGrows hSecond => ?_
    exact J.define
      (hOperation (J.weaken hGrows hFirst) hSecond)
| .negate operand t line, hExpr => by
    rcases hCovers.negate hExpr with
      ⟨hOperand, hAsks, hOperation⟩
    rw [Expr.lower]
    refine Lowering.ofReduce_follows hCovers hExpr id
      (fun k => ?_) line
    refine J.bind
      ((Expr.lower_follows hCovers operand hOperand).reduce
      hAsks k) fun v _ _ hValue => ?_
    exact J.define (hOperation hValue)
| .call callee prototype args params t line, hExpr => by
    rcases hCovers.call hExpr with ⟨hArgs, hAsks, hCall⟩
    have hAll := Expr.lowerAll_follows hCovers args hArgs
    rw [Expr.lower]
    refine Lowering.ofReduce_follows hCovers hExpr id
      (fun k => ?_) line
    refine J.bind (Lowering.convertEach_holds hAll hAsks k)
      fun values _ _ hValues => ?_
    rcases hCall hValues with ⟨hVoid, hResult⟩
    split
    · rename_i hType
      refine J.bind (J.append (hVoid hType).1)
        fun _ _ _ _ => ?_
      exact J.pure fun k' _ => (hVoid hType).2 k'
    · rename_i hType
      exact J.define (hResult hType)
| .compare op left right line, hExpr => by
    rcases hCovers.compare hExpr with
      ⟨hLeft, hRight, hFail, hCompare⟩
    have hReduce : ∀ k, J.Offers k .bool
        (Lowering.compare op left.lower right.lower
          (Lowering.comparedAs left.ty right.ty line)) := by
      intro k
      cases hCommon : Lowering.comparedAs left.ty right.ty
        line with
      | error fault =>
          exact J.throw (hFail fault hCommon) fault
      | ok t =>
          rcases hCompare t hCommon with
            ⟨hAsks, hAsks', hOperation⟩
          refine J.bind
            ((Expr.lower_follows hCovers left hLeft).convert
              k t
            hAsks) fun a k' _ hFirst => ?_
          refine J.bind
            ((Expr.lower_follows hCovers right
              hRight).convert
            k' t hAsks') fun b _ hGrows hSecond => ?_
          exact J.define
            (hOperation (J.weaken hGrows hFirst) hSecond)
    rw [Expr.lower]
    exact Lowering.withBranches_follows hCovers hExpr id
      hReduce (fun k onTrue onFalse =>
        J.bind (hReduce k) fun _ _ _ =>
          J.branch onTrue onFalse) line
| .and left right line, hExpr => by
    rcases hCovers.and hExpr with
      ⟨hLeft, hRight, hAsks, hAsks'⟩
    rw [Expr.lower]
    exact Lowering.mergeBranches_follows hCovers hExpr id
      rfl (Lowering.both_keeps
        ((Expr.lower_follows hCovers left hLeft).branches
          hAsks)
        ((Expr.lower_follows hCovers right hRight).branches
          hAsks')) line
| .or left right line, hExpr => by
    rcases hCovers.or hExpr with
      ⟨hLeft, hRight, hAsks, hAsks'⟩
    rw [Expr.lower]
    exact Lowering.mergeBranches_follows hCovers hExpr id
      rfl (Lowering.either_keeps
        ((Expr.lower_follows hCovers left hLeft).branches
          hAsks)
        ((Expr.lower_follows hCovers right hRight).branches
          hAsks')) line
| .not operand line, hExpr => by
    rcases hCovers.not hExpr with ⟨hOperand, hAsks⟩
    rw [Expr.lower]
    exact Lowering.mergeBranches_follows hCovers hExpr id
      rfl (fun k onTrue onFalse =>
        (Expr.lower_follows hCovers operand
          hOperand).branches hAsks k onFalse onTrue) line

theorem Expr.lowerAll_follows
    (hCovers : J.Covers places exprs asks) :
    ∀ es : List Expr, (∀ e ∈ es, exprs e) →
      List.Forall₂ (Lowering.Follows J asks) es
        (Expr.lowerAll es)
| [], _ => by
    rw [Expr.lowerAll]
    exact .nil
| e :: rest, hExprs => by
    rcases List.forall_mem_cons.mp hExprs with
      ⟨hFirst, hRest⟩
    rw [Expr.lowerAll]
    exact .cons (Expr.lower_follows hCovers e hFirst)
      (Expr.lowerAll_follows hCovers rest hRest)

end

end

end Bracketry
