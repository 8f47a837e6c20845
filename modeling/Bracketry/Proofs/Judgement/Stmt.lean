import Bracketry.Proofs.Discipline.Program
import Bracketry.Proofs.Judgement
import Bracketry.Proofs.Meaning

/-
  This file follows the writing of statements and functions,
  for all judgements about typed code at once.

  A break needs a loop to leave, which may be one around the
  statement.

  Main declarations:
    * `Build.Judgement.Within`
    * `FunctionDef.lowerParameters_follows`
    * `FunctionDef.lowerBody_follows`
-/

namespace Bracketry

open Build (Judgement)

/- The rules for nodes, with those for statements. -/
structure Build.Judgement.CoversAll
    (J : Judgement)
    (places : Place → Prop)
    (exprs : Expr → Prop)
    (asks : Expr → Ty → Prop)
    (stmts : Stmt → Prop) : Prop
    extends J.Covers places exprs asks where
  sequence : ∀ {head : Stmt} {tail : List Stmt},
    stmts (.sequence head tail) → stmts head ∧
      ∀ st ∈ tail, stmts st
  ifThen : ∀ {condition : Expr} {body : Stmt} {line : Nat},
    stmts (.ifThen condition body line) →
    exprs condition ∧ asks condition .bool ∧ stmts body
  ifElse :
    ∀ {condition : Expr} {body other : Stmt} {line : Nat},
    stmts (.ifElse condition body other line) →
    exprs condition ∧ asks condition .bool ∧ stmts body ∧
      stmts other
  whileLoop :
    ∀ {condition : Expr} {body : Stmt} {line : Nat},
    stmts (.whileLoop condition body line) →
    exprs condition ∧ asks condition .bool ∧ stmts body
  doWhile : ∀ {body : Stmt} {condition : Expr} {line : Nat},
    stmts (.doWhile body condition line) →
    exprs condition ∧ asks condition .bool ∧ stmts body
  assign : ∀ {target : Place} {value : Expr} {line : Nat},
    stmts (.assign target value line) →
    places target ∧ exprs value ∧ asks value target.ty ∧
      ∀ {k v address}, J.Is k target.ty v →
        J.Is k (.pointer target.ty) address →
          J.Legal k (.store v address)
  ret : ∀ {t : Ty} {line : Nat}, stmts (.ret none t line) →
    ∀ k, J.Legal k (.ret none)
  retValue : ∀ {value : Expr} {t : Ty} {line : Nat},
    stmts (.ret (some value) t line) →
    exprs value ∧ asks value t ∧
      ∀ {k v}, J.Is k t v → J.Legal k (.ret (some v))
  evaluate : ∀ {call : Expr} {line : Nat},
    stmts (.evaluate call line) →
    exprs call ∧ asks call call.ty

namespace Build.Judgement

variable {J : Judgement} {α β : Type}
variable {enclosed enclosed' : Bool} {x : Build α}

/- A step follows, if its breaks have a loop around. -/
def Within
    (J : Judgement)
    (enclosed : Bool)
    (x : Build α) : Prop :=
  ∀ k, J.Breaks k ∨ enclosed = true → J.Keeps k x

namespace Within

theorem of_keeps
    (h : ∀ k, J.Keeps k x) :
    J.Within enclosed x :=
  fun k _ => h k

theorem imp
    (h : J.Within enclosed x)
    (hImp : enclosed' = true → enclosed = true) :
    J.Within enclosed' x :=
  fun k hBreaks => h k (hBreaks.imp_right hImp)

theorem bind
    {f : α → Build β}
    (hFirst : J.Within enclosed x)
    (hSecond : ∀ a, J.Within enclosed (f a)) :
    J.Within enclosed (x >>= f) :=
  fun k hBreaks =>
    J.bind (hFirst k hBreaks) fun a k' hGrows _ =>
      hSecond a k' (hBreaks.imp_left (J.breaking hGrows))

theorem label :
    J.Within enclosed Build.label :=
  of_keeps fun _ => J.label

theorem place
    (l : Label) :
    J.Within enclosed (Build.place l) :=
  of_keeps fun _ => J.place l

theorem placeIf
    {needed : Bool}
    {l : Label}
    (h : J.Within enclosed x) :
    J.Within enclosed
      (if needed = true then Build.place l >>= fun _ =>
        x else x) := by
  cases needed with
  | true => exact (place l).bind fun _ => h
  | false => exact h

theorem jump
    (l : Label) :
    J.Within enclosed (Build.jump l) :=
  of_keeps fun _ => J.jump l

/- The body of a loop has a loop to leave. -/
theorem insideLoop
    {exit : Label}
    {x : Build Unit}
    (h : J.Within enclosed' x) :
    J.Within enclosed (Build.insideLoop exit x) :=
  of_keeps fun k =>
    J.insideLoop (h _ (.inl (J.breaks exit k)))

end Within

end Build.Judgement

------------------------------------------------------------
-- Statements
------------------------------------------------------------

variable {J : Judgement}

namespace Stmt

open Build.Judgement

/- Code between any two labels. -/
def Between.Within
    (J : Judgement)
    (enclosed : Bool)
    (x : Between) : Prop :=
  ∀ before after, J.Within enclosed (x before after)

section

variable {condition : Choice} {body other : Between}
variable {enclosed enclosed' : Bool}

theorem follow_within
    {tail : Option (Bool × Between)}
    (hHead : body.Within J enclosed)
    (hTail : ∀ rest ∈ tail, rest.2.Within J enclosed')
    (headNeedsAfter : Bool) :
    Between.Within J (enclosed && enclosed')
      (follow body headNeedsAfter tail) := by
  have hHead' : ∀ before after,
      J.Within (enclosed && enclosed')
        (body before after) :=
    fun before after =>
      (hHead before after).imp fun h =>
        (Bool.and_eq_true_iff.mp h).1
  intro before after
  cases tail with
  | none => exact hHead' before after
  | some rest =>
      refine Within.label.bind fun between => ?_
      refine (hHead' before between).bind fun _ => ?_
      refine Within.placeIf
        ((hTail rest rfl between after).imp ?_)
      exact fun h => (Bool.and_eq_true_iff.mp h).2

variable (hCondition :
  ∀ k onTrue onFalse, J.Keeps k (condition onTrue onFalse))

include hCondition

theorem lowerIf_within
    (hBody : body.Within J enclosed) :
    Between.Within J enclosed (lowerIf condition body) := by
  intro before after
  refine Within.label.bind fun onTrue => ?_
  refine (Within.of_keeps fun k => hCondition k _ _).bind
    fun _ => ?_
  exact (Within.place onTrue).bind fun _ =>
    hBody onTrue after

theorem lowerIfElse_within
    (hBody : body.Within J enclosed)
    (hOther : other.Within J enclosed') :
    Between.Within J (enclosed && enclosed')
      (lowerIfElse condition body other) := by
  intro before after
  refine Within.label.bind fun onTrue => ?_
  refine Within.label.bind fun onFalse => ?_
  refine (Within.of_keeps fun k => hCondition k _ _).bind
    fun _ => ?_
  refine (Within.place onTrue).bind fun _ => ?_
  refine Within.bind ((hBody onTrue after).imp fun h => ?_)
    fun _ => ?_
  · exact (Bool.and_eq_true_iff.mp h).1
  · refine (Within.jump after).bind fun _ => ?_
    refine (Within.place onFalse).bind fun _ => ?_
    exact (hOther onFalse after).imp fun h =>
      (Bool.and_eq_true_iff.mp h).2

theorem lowerWhile_within
    (hBody : body.Within J enclosed) :
    Between.Within J true (lowerWhile condition body) := by
  intro before after
  refine Within.label.bind fun start => ?_
  refine (Within.of_keeps fun k => hCondition k _ _).bind
    fun _ => ?_
  refine (Within.place start).bind fun _ => ?_
  refine Within.bind (.insideLoop (hBody start before))
    fun _ => ?_
  exact .jump before

theorem lowerDoWhile_within
    (hBody : body.Within J enclosed) :
    Between.Within J true
      (lowerDoWhile body condition) := by
  intro before after
  refine Within.label.bind fun test => ?_
  refine Within.bind (.insideLoop (hBody before test))
    fun _ => ?_
  refine (Within.place test).bind fun _ => ?_
  exact .of_keeps fun k => hCondition k _ _

end

section

variable {places : Place → Prop} {exprs : Expr → Prop}
variable {asks : Expr → Ty → Prop} {stmts : Stmt → Prop}

theorem lowerAssign_follows
    (hCovers : J.CoversAll places exprs asks stmts)
    {target : Place}
    {value : Expr}
    {line : Nat}
    (hStmt : stmts (.assign target value line))
    (k : J.Known) :
    J.Keeps k (lowerAssign target value) := by
  rcases hCovers.assign hStmt with
    ⟨hTarget, hValue, hAsks, hStore⟩
  have hLower :=
    Expr.lower_follows hCovers.toCovers value hValue
  refine J.bind (hLower.convert k target.ty hAsks)
    fun v k' _ hStored => ?_
  refine J.bind (Place.address_follows hCovers.toCovers
    target hTarget k') fun address _ hGrows hAddress => ?_
  exact J.append (hStore (J.weaken hGrows hStored) hAddress)

theorem lowerReturn_follows
    (hCovers : J.CoversAll places exprs asks stmts)
    {value : Option Expr}
    {t : Ty}
    {line : Nat}
    (hStmt : stmts (.ret value t line))
    (k : J.Known) :
    J.Keeps k (lowerReturn t value) := by
  cases value with
  | none => exact J.append (hCovers.ret hStmt k)
  | some value =>
      rcases hCovers.retValue hStmt with
        ⟨hValue, hAsks, hReturn⟩
      have hLower :=
        Expr.lower_follows hCovers.toCovers value hValue
      refine J.bind (hLower.convert k t hAsks)
        fun v _ _ hReturned => ?_
      exact J.append (hReturn hReturned)

mutual

/- Statements follow a judgement that covers them. -/
theorem lower_within
    (hCovers : J.CoversAll places exprs asks stmts) :
    ∀ st : Stmt, stmts st →
      Between.Within J st.breaksEnclosed st.lower
| .empty line, _ => by
    rw [lower]
    exact fun _ _ => .of_keeps fun _ => J.pure fun _ _ =>
      trivial
| .sequence head tail, hStmt => by
    rcases hCovers.sequence hStmt with ⟨hHead, hTail⟩
    rw [lower, breaksEnclosed]
    exact follow_within (lower_within hCovers head hHead)
      (lowerTail_within hCovers tail hTail) _
| .ifThen condition body line, hStmt => by
    rcases hCovers.ifThen hStmt with
      ⟨hCondition, hAsks, hBody⟩
    have hLower := Expr.lower_follows hCovers.toCovers
      condition hCondition
    rw [lower, breaksEnclosed]
    exact lowerIf_within (hLower.branches hAsks)
      (lower_within hCovers body hBody)
| .ifElse condition body other line, hStmt => by
    rcases hCovers.ifElse hStmt with
      ⟨hCondition, hAsks, hBody, hOther⟩
    have hLower := Expr.lower_follows hCovers.toCovers
      condition hCondition
    rw [lower, breaksEnclosed]
    exact lowerIfElse_within (hLower.branches hAsks)
      (lower_within hCovers body hBody)
        (lower_within hCovers other hOther)
| .whileLoop condition body line, hStmt => by
    rcases hCovers.whileLoop hStmt with
      ⟨hCondition, hAsks, hBody⟩
    have hLower := Expr.lower_follows hCovers.toCovers
      condition hCondition
    rw [lower, breaksEnclosed]
    · exact lowerWhile_within (hLower.branches hAsks)
        (lower_within hCovers body hBody)
    all_goals simp
| .doWhile body condition line, hStmt => by
    rcases hCovers.doWhile hStmt with
      ⟨hCondition, hAsks, hBody⟩
    have hLower := Expr.lower_follows hCovers.toCovers
      condition hCondition
    rw [lower, breaksEnclosed]
    · exact lowerDoWhile_within (hLower.branches hAsks)
        (lower_within hCovers body hBody)
    all_goals simp
| .assign target value line, hStmt => by
    rw [lower]
    exact fun _ _ =>
      .of_keeps (lowerAssign_follows hCovers hStmt)
| .ret value t line, hStmt => by
    rw [lower]
    exact fun _ _ =>
      .of_keeps (lowerReturn_follows hCovers hStmt)
| .breakLoop line, _ => by
    rw [lower, breaksEnclosed]
    exact fun _ _ k hBreaks => J.leave line
      (hBreaks.resolve_right Bool.false_ne_true)
| .evaluate call line, hStmt => by
    rcases hCovers.evaluate hStmt with ⟨hCall, hAsks⟩
    have hLower :=
      Expr.lower_follows hCovers.toCovers call hCall
    rw [lower]
    refine fun _ _ => .of_keeps fun k => ?_
    exact J.bind (hLower.reduce hAsks k) fun _ _ _ _ =>
      J.pure fun _ _ => trivial

theorem lowerTail_within
    (hCovers : J.CoversAll places exprs asks stmts) :
    ∀ sts : List Stmt, (∀ st ∈ sts, stmts st) →
      ∀ rest ∈ lowerTail sts,
        rest.2.Within J (allEnclosed sts)
| [], _ => by simp [lowerTail]
| st :: sts, hStmts => by
    rcases List.forall_mem_cons.mp hStmts with
      ⟨hFirst, hRest⟩
    rw [lowerTail, allEnclosed]
    rintro _ ⟨⟩
    exact follow_within (lower_within hCovers st hFirst)
      (lowerTail_within hCovers sts hRest) _

end

end

end Stmt

namespace FunctionDef

open Build.Judgement

/- Arguments are stored in the slots of their parameters. -/
theorem lowerParameters_follows
    {params : List Identifier}
    {k : J.Known}
    (hSlots : ∀ x ∈ params, ∀ k, J.Holds k
      (fun _ k' =>
        J.Is k' (.pointer x.ty)
          (.named x.storage (.pointer x.ty)))
      (Build.allocate x.storage x.ty))
    (hStore : ∀ x ∈ params, ∀ k' address, J.Grows k k' →
      J.Is k' (.pointer x.ty) address →
      J.Legal k' (.store x.incoming address)) :
    J.Keeps k (lowerParameters params) := by
  induction params generalizing k with
  | nil => exact J.pure fun _ _ => trivial
  | cons x rest ih =>
      rcases List.forall_mem_cons.mp hSlots with
        ⟨hSlot, hSlots'⟩
      rcases List.forall_mem_cons.mp hStore with
        ⟨hFirst, hRest⟩
      have hParameter : J.Keeps k (lowerParameter x) :=
        J.bind (hSlot k) fun _ k' hGrows hAddress =>
          J.append (hFirst k' _ hGrows hAddress)
      refine J.bind hParameter fun _ k' hGrows _ =>
        ih hSlots' ?_
      exact fun y hMem k'' address hMore =>
        hRest y hMem k'' address (J.trans hGrows hMore)

theorem lowerEnd_follows
    {t : Ty}
    (hVoid : t = .void → ∀ k, J.Legal k (.ret none))
    (hSolid : t ≠ .void → ∀ k,
      J.Legal k (.ret (some (Value.initial t))))
    (k : J.Known) :
    J.Keeps k (lowerEnd t) := by
  refine J.getBind fun b => ?_
  split
  · exact J.pure fun _ _ => trivial
  · split
    · rename_i hType
      exact J.append (hVoid hType k)
    · rename_i hType
      exact J.append (hSolid hType k)

theorem lowerBody_follows
    {f : FunctionDef}
    (hBody : f.body.lower.Within J f.body.breaksEnclosed)
    (hEnd : ∀ k,
      J.Keeps k (lowerEnd f.signature.returnType)) :
    J.Within f.body.breaksEnclosed f.lowerBody := by
  refine Within.label.bind fun before => ?_
  refine Within.label.bind fun after => ?_
  refine Within.placeIf ?_
  refine (hBody before after).bind fun _ => ?_
  refine Within.placeIf ?_
  refine (Within.of_keeps hEnd).bind fun _ => ?_
  exact .of_keeps fun _ => J.getBind fun _ =>
    J.pure fun _ _ => trivial

end FunctionDef

end Bracketry
