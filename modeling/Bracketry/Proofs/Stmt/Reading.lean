import Bracketry.Proofs.Expr.Reading
import Bracketry.Proofs.Ty.Reading
import Bracketry.Stmt.Parser

/-
  This file says which statements can be read at a point of
  a program, and what is known behind them.

  Only declarations, blocks and loops change what is known,
  and behind a block or a loop its own change is undone.  A
  break is accepted inside of a loop and nowhere else, and
  the body of a loop is never rejected for a break in it.

  Main declarations:
    * `Stmt.Read` and `Stmt.ReadAll`
    * `Stmt.loopBody_spares` and `Stmt.parse_break`
-/

namespace Bracketry

------------------------------------------------------------
-- Statements that are Read
------------------------------------------------------------

/- The type and first value of a new variable. -/
inductive Stmt.Initial
    (σ : Scope)
    (declared : Ty) : Ty → Expr → Prop
| given {t : Ty} {value : Expr}
    (hValue : value.Read σ)
    (hAgree : value.agree declared = .ok t) :
    Stmt.Initial σ declared t value
| default {value : Expr} {line : Nat}
    (hSpecified : declared.IsFullySpecified)
    (hOk : Expr.initial declared line = .ok value) :
    Stmt.Initial σ declared declared value

mutual

/- A statement, with what is known around it. -/
inductive Stmt.Read : Context → Stmt → Context → Prop
| declaration {c : Context} {enclosing : Enclosing}
    {scope : Scope} {declared t : Ty} {name : String}
      {value : Expr} {line : Nat}
    (hDeclared : declared.Spelled c.scope.globals)
    (hVoid : declared ≠ .void)
    (hInitial : Stmt.Initial c.scope declared t value)
    (hFunction : c.function = some enclosing)
    (hDeclare :
      c.scope.declare
        ⟨name, t, c.scope.blockBinding enclosing.name,
          line⟩ = .ok scope) :
    Stmt.Read c
      (.assign
        (.var ⟨name, t, c.scope.blockBinding enclosing.name,
          line⟩)
        value line)
      { c with scope := scope }
| assignment {c : Context} {target : Place} {value : Expr}
    {t : Ty} {line : Nat}
    (hTarget : target.Read c.scope)
    (hValue : value.Read c.scope)
    (hAgree : value.agree target.ty = .ok t) :
    Stmt.Read c (.assign target value line) c
| evaluation {c : Context} {call : Expr} {line : Nat}
    (hCall : call.Read c.scope)
    (hIsCall : call.IsCall) :
    Stmt.Read c (.evaluate call line) c
| returnNothing {c : Context} {enclosing : Enclosing}
    {line : Nat} (hFunction : c.function = some enclosing)
    (hVoid : enclosing.returnType = .void) :
    Stmt.Read c (.ret none enclosing.returnType line) c
| returnValue {c : Context} {enclosing : Enclosing}
    {value : Expr} {line : Nat}
    (hFunction : c.function = some enclosing)
    (hVoid : enclosing.returnType ≠ .void)
    (hValue : value.Read c.scope)
    (hConverts : value.ty.ConvertsTo enclosing.returnType) :
    Stmt.Read c
      (.ret (some value) enclosing.returnType line) c
| breakLoop {c : Context} {line : Nat}
    (hInside : c.loopDepth ≠ 0) :
    Stmt.Read c (.breakLoop line) c
| empty {c : Context} {line : Nat} :
    Stmt.Read c (.empty line) c
| block {c c' : Context} {sts : List Stmt} {line : Nat}
    (hAll : Stmt.ReadAll c.enter sts c') :
    Stmt.Read c (.ofList sts line) c'.leave
| ifThen {c c' : Context} {condition : Expr} {body : Stmt}
    {line : Nat} (hCondition : condition.Read c.scope)
    (hIsCondition : condition.IsCondition)
    (hBody : body.Read c c') :
    Stmt.Read c (.ifThen condition body line) c'
| ifElse {c c₁ c₂ : Context} {condition : Expr}
    {body other : Stmt} {line : Nat}
    (hCondition : condition.Read c.scope)
    (hIsCondition : condition.IsCondition)
    (hBody : body.Read c c₁)
    (hOther : other.Read c₁ c₂) :
    Stmt.Read c (.ifElse condition body other line) c₂
| whileLoop {c c' : Context} {condition : Expr}
    {body : Stmt} {line : Nat}
    (hCondition : condition.Read c.scope)
    (hIsCondition : condition.IsCondition)
    (hBody : body.Read c.enterLoop c') :
    Stmt.Read c (.whileLoop condition body line)
      c'.leaveLoop
| doWhile {c c' : Context} {condition : Expr} {body : Stmt}
    {line : Nat} (hBody : body.Read c.enterLoop c')
    (hCondition : condition.Read c'.scope)
    (hIsCondition : condition.IsCondition) :
    Stmt.Read c (.doWhile body condition line) c'.leaveLoop

/- Statements in a row. -/
inductive Stmt.ReadAll : Context → List Stmt →
    Context → Prop
| nil {c : Context} :
    Stmt.ReadAll c [] c
| cons {c c₁ c₂ : Context} {st : Stmt} {rest : List Stmt}
    (hFirst : st.Read c c₁)
    (hRest : Stmt.ReadAll c₁ rest c₂) :
    Stmt.ReadAll c (st :: rest) c₂

end

/-
  A relation between what is known before and behind: across
  a declaration, a block and a loop, and so across any
  statement.
-/
structure Context.Carried (R : Context → Context → Prop) :
    Prop where
  refl : ∀ c, R c c
  trans : ∀ {c c₁ c₂}, R c c₁ → R c₁ c₂ → R c c₂
  declare :
    ∀ {c scope enclosing declared t name value line},
    declared.Spelled c.scope.globals →
    Stmt.Initial c.scope declared t value →
    c.function = some enclosing →
    c.scope.declare
        ⟨name, t, c.scope.blockBinding enclosing.name,
          line⟩ = .ok scope →
      R c { c with scope := scope }
  block : ∀ {c c' : Context}, R c.enter c' → R c c'.leave
  loop : ∀ {c c' : Context}, R c.enterLoop c' →
    R c c'.leaveLoop

namespace Stmt

variable {R : Context → Context → Prop}

mutual

theorem Read.carried
    (hR : Context.Carried R) :
    ∀ {c : Context} {st : Stmt} {c' : Context},
      st.Read c c' → R c c'
| _, _, _, .declaration hDeclared _ hInitial hFunction
    hDeclare =>
      hR.declare hDeclared hInitial hFunction hDeclare
| _, _, _, .assignment _ _ _ => hR.refl _
| _, _, _, .evaluation _ _ => hR.refl _
| _, _, _, .returnNothing _ _ => hR.refl _
| _, _, _, .returnValue _ _ _ _ => hR.refl _
| _, _, _, .breakLoop _ => hR.refl _
| _, _, _, .empty => hR.refl _
| _, _, _, .block hAll => hR.block (hAll.carried hR)
| _, _, _, .ifThen _ _ hBody => hBody.carried hR
| _, _, _, .ifElse _ _ hBody hOther =>
    hR.trans (hBody.carried hR) (hOther.carried hR)
| _, _, _, .whileLoop _ _ hBody =>
    hR.loop (hBody.carried hR)
| _, _, _, .doWhile hBody _ _ => hR.loop (hBody.carried hR)

theorem ReadAll.carried
    (hR : Context.Carried R) :
    ∀ {c : Context} {sts : List Stmt} {c' : Context},
      ReadAll c sts c' → R c c'
| _, _, _, .nil => hR.refl _
| _, _, _, .cons hFirst hRest =>
    hR.trans (hFirst.carried hR) (hRest.carried hR)

end

end Stmt

namespace Expr

open Fault (Spares)

theorem agree_spares
    (value : Expr)
    (declared : Ty) :
    Spares (value.agree declared) := by
  unfold agree
  split
  · split
    · split
      · exact .ok
      · exact .error Cause.noConfusion
    · exact .error Cause.noConfusion
  · split
    · exact .ok
    · exact .error Cause.noConfusion

theorem initial_spares
    (t : Ty)
    (line : Nat) :
    Spares (initial t line) := by
  unfold initial
  split <;>
    first | exact .ok | exact .error Cause.noConfusion

end Expr

namespace Stmt

open Parse

variable {N : String → Prop} {c : Context} {name : String}
variable {s t : Parser} {fault : Fault}

theorem initializer_gives
    (declared : Ty)
    (name : String)
    (line : Nat) :
    Gives N c
      (fun (t, value) => Initial c.scope declared t value)
      (initializer declared name line) := by
  apply (Gives.accept _).bind
  intro given _
  split
  · apply Expr.parse_gives.bind
    intro value hValue
    apply Leads.check (Expr.agree_spares _ _)
    intro t hOk
    exact Gives.pure (.given hValue hOk)
  · apply Leads.require (.mistyped _ _)
    intro hSpecified
    apply Leads.check (Expr.initial_spares _ _)
    intro value hOk
    exact Gives.pure (.default hSpecified hOk)

theorem bind_leads
    (hName : N name)
    (t : Ty)
    (line : Nat) :
    Leads N c
      (fun x c' =>
        ∃ enclosing scope,
          c.function = some enclosing ∧
            x =
              ⟨name, t, c.scope.blockBinding enclosing.name,
                line⟩ ∧
            c.scope.declare x = .ok scope ∧
            c' = { c with scope := scope })
      (Stmt.bind name t line) := by
  apply Leads.get_named
  rintro s hNamed rfl
  split
  · exact .mistyped _ _
  · rename_i enclosing hFunction
    apply (Leads.declare hName).bind
    rintro _ _ ⟨scope, hOk, rfl⟩
    exact .pure ⟨enclosing, scope, hFunction, rfl, hOk, rfl⟩

/- The part of a declaration in front of its initializer. -/
def header : Parse Field := do
  let field ← Field.header
  if field.ty = .void then
    Parse.mistyped (.voidVariable field.name) field.line
  return field

/- The rest of a declaration. -/
def declareAs (field : Field) : Parse Stmt := do
  let initial ← initializer field.ty field.name field.line
  Parse.expect (.symbol .semicolon)
  let x ← bind field.name initial.1 field.line
  return .assign (.var x) initial.2 field.line

theorem declaration_eq :
    declaration = header >>= declareAs := by
  simp only [header, Field.header, bind_assoc, pure_bind,
    apply_ite (fun x : Parse Field => x >>= declareAs)]
  rfl

theorem header_gives :
    Gives N c
      (fun field => N field.name ∧
        field.ty.Spelled c.scope.globals ∧ field.ty ≠ .void)
      header := by
  apply Field.header_gives.bind
  rintro field ⟨hName, hSpelled⟩
  apply Leads.refuse (.mistyped _ _)
  intro hVoid
  exact Gives.pure ⟨hName, hSpelled, hVoid⟩

theorem declaration_leads :
    Leads N c (Read c) declaration := by
  rw [declaration_eq]
  apply header_gives.bind
  rintro field ⟨hName, hSpelled, hVoid⟩
  apply (initializer_gives field.ty field.name
    field.line).bind
  rintro ⟨t, value⟩ hInitial
  apply (Gives.expect _).bind
  intro _ _
  apply (bind_leads hName t field.line).bind
  rintro x _
    ⟨enclosing, scope, hFunction, rfl, hDeclare, rfl⟩
  exact .pure (.declaration hSpelled hVoid hInitial
    hFunction hDeclare)

theorem condition_gives :
    Gives N c (fun e => e.Read c.scope ∧ e.IsCondition)
      condition := by
  apply Leads.get_bind
  intro s _
  apply Expr.parse_gives.bind
  intro e hRead
  apply Leads.check (Expr.requireCondition_spares _ _)
  intro _ hOk
  unfold Expr.requireCondition at hOk
  split at hOk
  · rename_i hHolds
    exact Gives.pure ⟨hRead, hHolds⟩
  · cases hOk

theorem assignment_leads
    {x : Identifier}
    (hLookup : c.scope.lookup name = some (.var x))
    (line : Nat) :
    Leads N c (Read c) (assignment x line) := by
  apply Gives.advance.bind
  intro _ _
  apply (Expr.access_gives Expr.parse_gives hLookup).bind
  intro target hTarget
  apply (Gives.expect _).bind
  intro _ _
  apply Expr.parse_gives.bind
  intro value hValue
  apply Leads.check (Expr.agree_spares _ _)
  intro t hOk
  apply (Gives.expect _).bind
  intro _ _
  exact .pure (.assignment hTarget hValue hOk)

theorem evaluation_leads :
    Leads N c (Read c) evaluation := by
  apply Leads.get_bind
  intro s _
  apply Expr.parse_gives.bind
  intro e hRead
  apply Leads.require (.mistyped _ _)
  intro hCall
  apply (Gives.expect _).bind
  intro _ _
  exact .pure (.evaluation hRead hCall)

theorem returned_leads :
    Leads N c (Read c) returned := by
  apply Leads.get_bind
  intro s _
  apply Gives.advance.bind
  intro _ _
  apply Leads.get_bind
  rintro s₁ rfl
  split
  · exact .unexpected _
  · rename_i enclosing hFunction
    apply (Gives.accept _).bind
    intro bare _
    split
    · apply Leads.refuse (.mistyped _ _)
      intro hVoid
      exact .pure
        (.returnNothing hFunction
          (Decidable.not_not.mp hVoid))
    · apply Leads.refuse (.mistyped _ _)
      intro hVoid
      apply Expr.parse_gives.bind
      intro value hValue
      apply Leads.require
        (.throw fun _ => Cause.noConfusion)
      intro hConverts
      apply (Gives.expect _).bind
      intro _ _
      exact .pure
        (.returnValue hFunction hVoid hValue hConverts)

/- Breaks are faults outside of all loops only. -/
theorem broken_leads :
    Leads N c (Read c) broken := by
  apply Leads.get_bind
  intro s _
  apply Gives.advance.bind
  intro _ _
  apply Leads.get_bind
  rintro s₁ rfl
  by_cases hInside : s₁.loopDepth = 0
  · rw [if_pos hInside]
    exact .bind (R := fun _ _ => False)
      (.throw fun hOther => absurd hInside hOther)
        fun _ _ hFalse => hFalse.elim
  · rw [if_neg hInside]
    apply (Gives.expect _).bind
    intro _ _
    exact .pure (.breakLoop hInside)

theorem nothing_leads :
    Leads N c (Read c) nothing := by
  apply Leads.get_bind
  intro s _
  apply Gives.advance.bind
  intro _ _
  exact .pure .empty

theorem leading_leads
    (name : String) :
    Leads N c (Read c) (leading name) := by
  apply Leads.get_bind
  rintro s rfl
  split
  · exact declaration_leads
  · split
    · rename_i x hLookup
      exact assignment_leads hLookup s.line
    · exact evaluation_leads
    · exact .throw fun _ => Cause.noConfusion

------------------------------------------------------------
-- Compound Statements
------------------------------------------------------------

variable {statement : Parse Stmt}

theorem untilBrace_leads
    (hStatement : ∀ c, Leads N c (Read c) statement)
    (turns : Nat) :
    Leads N c (ReadAll c) (untilBrace statement turns) := by
  induction turns generalizing c with
  | zero => exact .pure .nil
  | succ turns ih =>
      apply Leads.get_bind
      intro s _
      split
      · exact .pure .nil
      · exact .pure .nil
      · apply (hStatement c).bind
        intro first c₁ hFirst
        apply ih.bind
        intro rest c₂ hRest
        exact .pure (.cons hFirst hRest)

theorem braced_leads
    (hStatement : ∀ c, Leads N c (Read c) statement) :
    Leads N c
      (fun st c' => ∃ sts line, st = .ofList sts line ∧
        ReadAll c sts c')
      (braced statement) := by
  apply Leads.get_bind
  intro s _
  apply (Gives.expect _).bind
  intro _ _
  apply Leads.get_bind
  intro s₁ _
  apply (untilBrace_leads hStatement s₁.left).bind
  intro statements c' hAll
  apply (Gives.expect _).bind
  intro _ _
  exact .pure ⟨statements, s.line, rfl, hAll⟩

theorem block_leads
    (hStatement : ∀ c, Leads N c (Read c) statement) :
    Leads N c (Read c) (block statement) := by
  apply Leads.enter.bind
  rintro _ _ rfl
  apply (braced_leads hStatement).bind
  rintro _ c' ⟨sts, line, rfl, hAll⟩
  apply Leads.leave.bind
  rintro _ _ rfl
  exact .pure (.block hAll)

/- The body of a loop is read one loop deeper. -/
theorem loopBody_eq
    (s : Parser) :
    loopBody statement s =
      (statement >>= fun body => do
        modify fun s =>
          { s with loopDepth := s.loopDepth - 1 }
        return body : Parse Stmt)
          { s with loopDepth := s.loopDepth + 1 } :=
  rfl

theorem loopBody_spared
    (hStatement : ∀ c, Leads N c (Read c) statement)
    (hNamed : s.Named N)
    (hError : loopBody statement s = .error fault t) :
    fault.cause ≠ .misplacedBreak := by
  rw [loopBody_eq] at hError
  -- Leaving the loop cannot fail, so the fault is one of
  -- the statement.
  cases hRun :
    statement { s with loopDepth := s.loopDepth + 1 } with
  | ok body u =>
      rw [Step.bind_of_ok hRun] at hError
      cases hError
  | error found u =>
      rw [Step.bind_of_error hRun] at hError
      cases hError
      exact (hStatement _).spared _ fault t hNamed.looped
        rfl hRun (Nat.succ_ne_zero _)

/- In the body of a loop no break is rejected. -/
theorem loopBody_spares
    (hStatement : ∀ c,
      Leads (fun _ => True) c (Read c) statement)
    (hError : loopBody statement s = .error fault t) :
    fault.cause ≠ .misplacedBreak :=
  loopBody_spared hStatement .true hError

theorem loopBody_leads
    (hStatement : ∀ c, Leads N c (Read c) statement) :
    Leads N c
      (fun st c' =>
        ∃ inner, Read c.enterLoop st inner ∧
          c' = inner.leaveLoop)
      (loopBody statement) := by
  refine ⟨?_, fun _ _ _ hNamed _ hError _ =>
    loopBody_spared hStatement hNamed hError⟩
  rintro s st s' hNamed rfl hOk
  rcases Step.bind_eq_ok.mp (loopBody_eq s ▸ hOk) with
    ⟨body, u, hBody, hLeave⟩
  cases hLeave
  rcases (hStatement _).reaches _ st u hNamed.looped rfl
    hBody with
    ⟨hRead, hNamed₁, hDepth⟩
  exact ⟨⟨u.context, hRead, rfl⟩, hNamed₁.looped,
    Nat.sub_eq_of_eq_add hDepth⟩

theorem choice_leads
    (hStatement : ∀ c, Leads N c (Read c) statement) :
    Leads N c (Read c) (choice statement) := by
  apply Leads.get_bind
  intro s _
  apply Gives.advance.bind
  intro _ _
  apply condition_gives.bind
  rintro decision ⟨hDecision, hCondition⟩
  apply (hStatement c).bind
  intro body c₁ hBody
  apply (Gives.accept _).bind
  intro more _
  split
  · apply (hStatement c₁).bind
    intro other c₂ hOther
    exact .pure (.ifElse hDecision hCondition hBody hOther)
  · exact .pure (.ifThen hDecision hCondition hBody)

theorem whileLoopOf_leads
    (hStatement : ∀ c, Leads N c (Read c) statement) :
    Leads N c (Read c) (whileLoopOf statement) := by
  apply Leads.get_bind
  intro s _
  apply Gives.advance.bind
  intro _ _
  apply condition_gives.bind
  rintro decision ⟨hDecision, hCondition⟩
  apply (loopBody_leads hStatement).bind
  rintro body _ ⟨inner, hBody, rfl⟩
  exact .pure (.whileLoop hDecision hCondition hBody)

theorem doWhileOf_leads
    (hStatement : ∀ c, Leads N c (Read c) statement) :
    Leads N c (Read c) (doWhileOf statement) := by
  apply Leads.get_bind
  intro s _
  apply Gives.advance.bind
  intro _ _
  apply (loopBody_leads hStatement).bind
  rintro body _ ⟨inner, hBody, rfl⟩
  apply (Gives.expect _).bind
  intro _ _
  apply condition_gives.bind
  rintro decision ⟨hDecision, hCondition⟩
  apply (Gives.expect _).bind
  intro _ _
  exact .pure (.doWhile hBody hDecision hCondition)

/- One statement, given how to read those in it. -/
theorem one_leads
    (hStatement : ∀ c, Leads N c (Read c) statement) :
    Leads N c (Read c) (one statement) := by
  apply Leads.get_bind
  intro s _
  split
  · exact choice_leads hStatement
  · exact whileLoopOf_leads hStatement
  · exact doWhileOf_leads hStatement
  · exact returned_leads
  · exact broken_leads
  · exact block_leads hStatement
  · exact nothing_leads
  · exact declaration_leads
  · exact leading_leads _
  · exact evaluation_leads

/- Statements are read so, however deep they nest. -/
theorem nested_leads
    (nesting : Nat) :
    ∀ c, Leads N c (Read c) (nested nesting) := by
  induction nesting with
  | zero => exact fun _ => evaluation_leads
  | succ nesting ih => exact fun _ => one_leads ih

theorem parse_leads
    (c : Context) :
    Leads N c (Read c) parse := by
  apply Leads.get_bind
  intro s _
  exact nested_leads s.left c

/-
  Before a break and its semicolon, the number of loops
  around is all that matters.
-/
theorem parse_break
    {s s' : Parser}
    (hAhead : s.Ahead
      [.keyword .breakWord, .symbol .semicolon] s') :
    (s.loopDepth ≠ 0 → ∃ t,
      parse s = .ok (.breakLoop s.line) t) ∧
      (s.loopDepth = 0 → ∃ t,
        parse s = .error ⟨.misplacedBreak, s.line⟩ t) := by
  have hParse : parse s = broken s := by
    have hLeft := hAhead.left_eq
    rw [parse, Step.get_bind, ← Nat.sub_add_cancel
      (n := s.left) (m := 1)
      (by
        rw [hLeft]; exact Nat.le_add_right_of_le
          (by decide)), nested, one,
      Step.get_bind, hAhead.lookahead_eq]
  rcases hAhead.advance with ⟨s₁, hAdvance, -, hRest⟩
  rcases hRest.expect with ⟨s₂, hExpect, -⟩
  have hDepth : s₁.loopDepth = s.loopDepth :=
    (Gives.advance.reaches s _ _ .true rfl hAdvance).2.2
  rw [hParse, broken, Step.get_bind,
    Step.bind_of_ok hAdvance, Step.get_bind, hDepth]
  constructor
  · intro hInside
    rw [if_neg hInside]
    exact ⟨s₂, Step.bind_of_ok hExpect⟩
  · intro hOutside
    rw [if_pos hOutside]
    exact ⟨s₁, rfl⟩

end Stmt

end Bracketry
