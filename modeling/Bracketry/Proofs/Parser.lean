import Bracketry.Parser
import Bracketry.Proofs.Scope.Local
import Bracketry.Proofs.Step

/-
  This file says what a step of reading leads to when it
  succeeds: a result, and what is known behind it.

  Taking tokens changes nothing of what is known.  In front
  of the tokens they ask for, the shared steps succeed.  All
  steps keep the number of loops around, and inside of a
  loop none fails because of a break.  Names come from the
  tokens: where those ahead are of some kind, so are those
  that get declared.

  Main declarations:
    * `Parse.Gives` and `Parser.Ahead`
    * `Parser.Ahead.append` and `Parser.Ahead.advance`
-/

namespace Bracketry

/- Names that are known, the loops and the function. -/
structure Context where
  scope : Scope
  loopDepth : Nat
  function : Option Enclosing

/- What is known at a point of reading. -/
def Parser.context (s : Parser) : Context :=
  ⟨s.scope, s.loopDepth, s.function⟩

namespace Context

/- Into a block. -/
def enter (c : Context) : Context :=
  { c with scope := c.scope.enter.2 }

/- Out of a block. -/
def leave (c : Context) : Context :=
  { c with scope := c.scope.leave }

/- Into the body of a loop. -/
def enterLoop (c : Context) : Context :=
  { c with loopDepth := c.loopDepth + 1 }

/- Out of the body of a loop. -/
def leaveLoop (c : Context) : Context :=
  { c with loopDepth := c.loopDepth - 1 }

end Context

------------------------------------------------------------
-- Names
------------------------------------------------------------

/- All names that are declared are of some kind. -/
structure Scope.Named
    (N : String → Prop)
    (σ : Scope) : Prop where
  vars : ∀ x, σ.Holds 0 x → N x.name
  headers : ∀ p ∈ σ.globals.prototypes, N p.name.name
  records : ∀ r ∈ σ.globals.records, N r.name

/- Those ahead are of that kind as well. -/
structure Parser.Named
    (N : String → Prop)
    (s : Parser) : Prop where
  ahead : ∀ lexeme ∈ s.tokens, ∀ name,
    lexeme.token = .identifier name → N name
  scope : s.scope.Named N

section

variable {N : String → Prop} {σ σ' : Scope} {s : Parser}

namespace Scope.Named

theorem declare
    {x : Identifier}
    (hNamed : σ.Named N)
    (hName : N x.name)
    (hOk : σ.declare x = .ok σ') :
    σ'.Named N := by
  have hGlobals := globals_of_declare hOk
  refine ⟨fun y hHolds => ?_, ?_, ?_⟩
  · rcases holds_of_declare hOk hHolds with rfl | hOld
    · exact hName
    · exact hNamed.vars y hOld
  · rw [hGlobals]
    exact hNamed.headers
  · rw [hGlobals]
    exact hNamed.records

theorem enter
    (hNamed : σ.Named N) :
    σ.enter.2.Named N :=
  ⟨fun x hHolds => hNamed.vars x (holds_of_enter hHolds),
    hNamed.headers, hNamed.records⟩

theorem leave
    (hNamed : σ.Named N) :
    σ.leave.Named N :=
  ⟨hNamed.vars, hNamed.headers, hNamed.records⟩

end Scope.Named

namespace Parser.Named

theorem true :
    s.Named fun _ => True :=
  ⟨fun _ _ _ _ => trivial, fun _ _ => trivial,
    fun _ _ => trivial, fun _ _ => trivial⟩

theorem enter
    (hNamed : s.Named N) :
    { s with scope := s.scope.enter.2 }.Named N :=
  ⟨hNamed.ahead, hNamed.scope.enter⟩

theorem leave
    {function : Option Enclosing}
    (hNamed : s.Named N) :
    { s with
      scope := s.scope.leave,
      function := function }.Named N :=
  ⟨hNamed.ahead, hNamed.scope.leave⟩

theorem looped
    {depth : Nat}
    (hNamed : s.Named N) :
    { s with loopDepth := depth }.Named N :=
  ⟨hNamed.ahead, hNamed.scope⟩

/- Tokens are taken. -/
theorem taken
    {tokens : List Lexeme}
    (hNamed : s.Named N)
    (hTokens : tokens ⊆ s.tokens) :
    { s with tokens := tokens }.Named N :=
  ⟨fun lexeme hMem => hNamed.ahead lexeme (hTokens hMem),
    hNamed.scope⟩

theorem lookahead
    {name : String}
    (hNamed : s.Named N)
    (hNext : s.lookahead = .identifier name) :
    N name := by
  unfold Parser.lookahead at hNext
  split at hNext
  · cases hNext
  · rename_i lexeme rest hTokens
    exact hNamed.ahead lexeme (hTokens ▸ List.mem_cons_self)
      name hNext

end Parser.Named

end

/- No fault of a check is about a break. -/
def Fault.Spares
    {α : Type}
    (x : Except Fault α) : Prop :=
  ∀ fault, x = .error fault → fault.cause ≠ .misplacedBreak

namespace Fault.Spares

variable {α β : Type}

theorem ok
    {a : α} :
    Spares (.ok a) := by
  rintro _ ⟨⟩

theorem error
    {fault : Fault}
    (hCause : fault.cause ≠ .misplacedBreak) :
    Spares (.error fault : Except Fault α) := by
  rintro _ ⟨⟩
  exact hCause

theorem bind
    {x : Except Fault α}
    {f : α → Except Fault β}
    (hFirst : Spares x)
    (hSecond : ∀ a, Spares (f a)) :
    Spares (x >>= f) := by
  cases x with
  | ok a => exact hSecond a
  | error fault => exact error (hFirst fault rfl)

end Fault.Spares

namespace Parse

variable {α β : Type}

/-
  Started in a context, where names are of a kind, a step
  that succeeds has a result and ends in a context that are
  related by `R`; names are of that kind there, and as many
  loops are around.  Inside of a loop its fault is not about
  a break.
-/
structure Leads
    (N : String → Prop)
    (c : Context)
    (R : α → Context → Prop)
    (x : Parse α) : Prop where
  reaches : ∀ s a s', s.Named N → s.context = c →
    x s = .ok a s' → R a s'.context ∧ s'.Named N ∧
      s'.loopDepth = s.loopDepth
  spared : ∀ s fault s', s.Named N → s.context = c →
    x s = .error fault s' → s.loopDepth ≠ 0 →
      fault.cause ≠ .misplacedBreak

/- The same of a step that leaves the context as it is. -/
abbrev Gives
    (N : String → Prop)
    (c : Context)
    (P : α → Prop)
    (x : Parse α) : Prop :=
  Leads N c (fun a c' => P a ∧ c' = c) x

variable {N : String → Prop} {c : Context}

namespace Leads

variable {R : α → Context → Prop} {Q : β → Context → Prop}
variable {x : Parse α} {f : Parser → Parse α} {p : Prop}
variable {fault : Parse PUnit}

/- All names are of some kind. -/
theorem of_ok
    (hLeads : Leads (fun _ => True) c R x)
    (s : Parser)
    (a : α)
    (s' : Parser)
    (hContext : s.context = c)
    (hOk : x s = .ok a s') :
    R a s'.context :=
  (hLeads.reaches s a s' .true hContext hOk).1

theorem pure
    {a : α}
    (hResult : R a c) :
    Leads N c R (pure a : Parse α) := by
  constructor
  · rintro s _ _ hNamed rfl ⟨⟩
    exact ⟨hResult, hNamed, rfl⟩
  · rintro s _ _ - - ⟨⟩

/- The second step starts where the first one leads to. -/
theorem bind
    {f : α → Parse β}
    (hFirst : Leads N c R x)
    (hSecond : ∀ a c', R a c' → Leads N c' Q (f a)) :
    Leads N c Q (x >>= f) := by
  constructor
  · intro s b s' hNamed hContext hOk
    rcases Step.bind_eq_ok.mp hOk with ⟨a, s₁, hOk₁, hOk₂⟩
    rcases hFirst.reaches s a s₁ hNamed hContext hOk₁ with
      ⟨hBetween, hNamed₁, hDepth₁⟩
    rcases (hSecond a _ hBetween).reaches s₁ b s' hNamed₁
      rfl hOk₂ with
      ⟨hResult, hNamed₂, hDepth₂⟩
    exact ⟨hResult, hNamed₂, hDepth₂.trans hDepth₁⟩
  · intro s fault s' hNamed hContext hError hInside
    cases hRun : x s with
    | ok a s₁ =>
        rcases hFirst.reaches s a s₁ hNamed hContext
          hRun with
          ⟨hBetween, hNamed₁, hDepth₁⟩
        rw [Step.bind_of_ok hRun] at hError
        rw [← hDepth₁] at hInside
        exact (hSecond a _ hBetween).spared s₁ fault s'
          hNamed₁ rfl hError hInside
    | error found s₁ =>
        rw [Step.bind_of_error hRun] at hError
        cases hError
        exact hFirst.spared s fault s' hNamed hContext
          hRun hInside

/- A step may look at the state it starts in. -/
theorem get_named
    (hNext : ∀ s, s.Named N → s.context = c →
      Leads N c R (f s)) :
    Leads N c R (get >>= f) where
  reaches s a s' hNamed hContext :=
    (hNext s hNamed hContext).reaches s a s' hNamed hContext
  spared s fault s' hNamed hContext :=
    (hNext s hNamed hContext).spared s fault s'
      hNamed hContext

theorem get_bind
    (hNext : ∀ s, s.context = c → Leads N c R (f s)) :
    Leads N c R (get >>= f) :=
  get_named fun s _ => hNext s

theorem of_modify
    {f : Parser → Parser}
    {R : Unit → Context → Prop}
    (hState : ∀ s, s.context = c → R () (f s).context)
    (hNames : ∀ s, s.Named N → (f s).Named N)
    (hDepth : ∀ s, (f s).loopDepth = s.loopDepth) :
    Leads N c R (modify f : Parse Unit) := by
  constructor
  · rintro s _ _ hNamed hContext ⟨⟩
    exact ⟨hState s hContext, hNames s hNamed, hDepth s⟩
  · rintro s _ _ - - ⟨⟩

theorem enter :
    Leads N c (fun _ c' => c' = c.enter)
      (modify fun s =>
        { s with scope := s.scope.enter.2 }) := by
  refine of_modify ?_ (fun _ hNamed => hNamed.enter)
    fun _ => rfl
  rintro s rfl
  rfl

theorem leave :
    Leads N c (fun _ c' => c' = c.leave)
      (modify fun s =>
        { s with scope := s.scope.leave }) := by
  refine of_modify ?_ (fun _ hNamed => hNamed.leave)
    fun _ => rfl
  rintro s rfl
  rfl

/- A step on the names that are known. -/
theorem onScope
    {line : Nat}
    {step : EStateM Fault Scope α}
    (hRefuses : Refuses line step)
    (hOk : ∀ a scope, c.scope.Named N →
      step c.scope = .ok a scope →
        R a { c with scope := scope } ∧ scope.Named N) :
    Leads N c R (onScope step) := by
  constructor
  · rintro s a s' hNamed rfl hRun
    unfold Parse.onScope at hRun
    split at hRun
    · rename_i scope hStep
      cases hRun
      rcases hOk _ _ hNamed.scope hStep with
        ⟨hResult, hScope⟩
      exact ⟨hResult, ⟨hNamed.ahead, hScope⟩, rfl⟩
    · cases hRun
  · intro s fault s' _ _ hError _
    unfold Parse.onScope at hError
    split at hError
    · cases hError
    · rename_i hStep
      cases hError
      exact (hRefuses _ _ _ hStep).2.2

/- A variable is bound. -/
theorem declare
    {x : Identifier}
    (hName : N x.name) :
    Leads N c
      (fun _ c' => ∃ scope, c.scope.declare x = .ok scope ∧
        c' = { c with scope := scope })
      (Parse.onScope (Scope.addVariable x)) := by
  refine onScope (Scope.addVariable_refuses x) ?_
  intro _ scope hNamed hStep
  have hDeclare := Scope.declare_of_addVariable hStep
  exact ⟨⟨scope, hDeclare, rfl⟩,
    hNamed.declare hName hDeclare⟩

------------------------------------------------------------
-- Faults
------------------------------------------------------------

theorem throw
    {fault : Fault}
    (hCause : c.loopDepth ≠ 0 →
      fault.cause ≠ .misplacedBreak) :
    Leads N c R (throw fault : Parse α) := by
  constructor
  · rintro _ _ _ - - ⟨⟩
  · rintro _ _ _ - rfl ⟨⟩
    exact hCause

theorem unexpected
    (expected : Expectation) :
    Leads N c R (unexpected expected) := by
  constructor
  · rintro _ _ _ - - ⟨⟩
  · rintro _ _ _ - - ⟨⟩ -
    exact Cause.noConfusion

theorem mistyped
    (problem : TypeProblem)
    (line : Nat) :
    Leads N c R (mistyped problem line) :=
  .throw fun _ => Cause.noConfusion

/- A check leaves the context as it is. -/
theorem check
    {x : Except Fault β}
    {f : β → Parse α}
    (hCheck : Fault.Spares x)
    (hNext : ∀ b, x = .ok b → Leads N c R (f b)) :
    Leads N c R (ofExcept x >>= f) := by
  cases x with
  | ok b =>
      have hLeads := hNext b rfl
      exact ⟨hLeads.reaches, hLeads.spared⟩
  | error fault =>
      have hThrow :
          Leads N c R (MonadExcept.throw fault : Parse α) :=
        throw fun _ => hCheck fault rfl
      exact ⟨hThrow.reaches, hThrow.spared⟩

/- Reading goes on only if a condition holds. -/
theorem require
    [Decidable p]
    {next : PUnit → Parse α}
    (hFault : Leads N c (fun _ _ => False) fault)
    (hNext : p → Leads N c R (next ⟨⟩)) :
    Leads N c R
      (if p then next ⟨⟩ else fault >>= next) := by
  split
  · rename_i hHolds
    exact hNext hHolds
  · exact hFault.bind fun _ _ hFalse => hFalse.elim

/- Reading goes on only if a condition does not hold. -/
theorem refuse
    [Decidable p]
    {next : PUnit → Parse α}
    (hFault : Leads N c (fun _ _ => False) fault)
    (hNext : ¬ p → Leads N c R (next ⟨⟩)) :
    Leads N c R
      (if p then fault >>= next else next ⟨⟩) := by
  split
  · exact hFault.bind fun _ _ hFalse => hFalse.elim
  · rename_i hFails
    exact hNext hFails

end Leads

namespace Gives

variable {P : α → Prop} {R : β → Context → Prop}

theorem pure
    {a : α}
    (hResult : P a) :
    Gives N c P (pure a : Parse α) :=
  Leads.pure ⟨hResult, rfl⟩

/- The next step starts in the same context. -/
theorem bind
    {x : Parse α}
    {f : α → Parse β}
    (hFirst : Gives N c P x)
    (hSecond : ∀ a, P a → Leads N c R (f a)) :
    Leads N c R (x >>= f) := by
  apply Leads.bind hFirst
  rintro a _ ⟨hResult, rfl⟩
  exact hSecond a hResult

theorem ofExcept
    {x : Except Fault α}
    (hCheck : Fault.Spares x)
    (hResult : ∀ a, x = .ok a → P a) :
    Gives N c P (ofExcept x) := by
  cases x with
  | ok a => exact .pure (hResult a rfl)
  | error fault =>
      exact Leads.throw fun _ => hCheck fault rfl

theorem settle :
    Gives N c (fun _ => True) settle := by
  unfold Parse.settle
  constructor
  · intro s a s' hNamed hContext hOk
    split at hOk <;> cases hOk
    exact ⟨⟨trivial, hContext⟩, hNamed, rfl⟩
  · intro s fault s' _ _ hError _
    split at hError <;> cases hError
    exact Cause.noConfusion

theorem advance :
    Gives N c (fun _ => True) advance := by
  have hTake :
      Gives N c (fun _ => True)
        (modify fun s =>
          { s with tokens := s.tokens.tail }) :=
    .of_modify (fun _ hContext => ⟨trivial, hContext⟩)
      (fun _ hNamed => hNamed.taken
        (List.tail_suffix _).subset) fun _ => rfl
  exact hTake.bind fun _ _ => settle

theorem expect
    (token : Token) :
    Gives N c (fun _ => True) (expect token) := by
  apply Leads.get_bind
  intro s _
  split
  · exact advance
  · exact .unexpected _

theorem identifier :
    Gives N c N identifier := by
  apply Leads.get_named
  intro s hNamed _
  split
  · rename_i name hNext
    exact advance.bind fun _ _ =>
      pure (hNamed.lookahead hNext)
  · exact .unexpected _

theorem accept
    (token : Token) :
    Gives N c (fun _ => True) (accept token) := by
  apply Leads.get_bind
  intro s _
  split
  · exact advance.bind fun _ _ => pure trivial
  · exact pure trivial

theorem moreItems
    {item : Parse α}
    (hItem : Gives N c P item)
    (turns : Nat) :
    Gives N c (fun items => ∀ a ∈ items, P a)
      (moreItems item turns) := by
  induction turns with
  | zero => exact pure (by simp)
  | succ turns ih =>
      apply (accept _).bind
      intro more _
      split
      · apply hItem.bind
        intro first hFirst
        apply ih.bind
        intro rest hRest
        exact pure
          (List.forall_mem_cons.mpr ⟨hFirst, hRest⟩)
      · exact pure (by simp)

theorem separated
    {item : Parse α}
    (hItem : Gives N c P item) :
    Gives N c (fun items => ∀ a ∈ items, P a)
      (separated item) := by
  apply hItem.bind
  intro first hFirst
  apply Leads.get_bind
  intro s _
  apply (moreItems hItem s.left).bind
  intro rest hRest
  exact pure (List.forall_mem_cons.mpr ⟨hFirst, hRest⟩)

end Gives

end Parse

namespace Parser

/-
  Some tokens stand ahead, and taking them leads to another
  state, in which a token is left.
-/
def Ahead
    (s : Parser)
    (tokens : List Token)
    (s' : Parser) : Prop :=
  ∃ lexemes : List Lexeme, lexemes.map (·.token) = tokens ∧
    s'.tokens ≠ [] ∧
      s = { s' with tokens := lexemes ++ s'.tokens }

namespace Ahead

variable {s s' : Parser} {t : Token}
    {tokens more : List Token}

theorem eq_of_nil
    (hAhead : s.Ahead [] s') :
    s = s' := by
  rcases hAhead with ⟨lexemes, hTokens, -, rfl⟩
  rw [List.map_eq_nil_iff.mp hTokens, List.nil_append]

theorem scope_eq
    (hAhead : s.Ahead tokens s') :
    s.scope = s'.scope := by
  rcases hAhead with ⟨lexemes, -, -, rfl⟩
  rfl

theorem left_eq
    (hAhead : s.Ahead tokens s') :
    s.left = tokens.length + s'.left := by
  rcases hAhead with ⟨lexemes, rfl, -, rfl⟩
  rw [List.length_map]
  exact List.length_append

theorem left_pos
    (hAhead : s.Ahead tokens s') :
    0 < s'.left := by
  rcases hAhead with ⟨-, -, hSome, -⟩
  exact List.length_pos_iff.mpr hSome

theorem append
    (hAhead : s.Ahead (tokens ++ more) s') :
    ∃ s₁, s.Ahead tokens s₁ ∧ s₁.Ahead more s' := by
  rcases hAhead with ⟨lexemes, hTokens, hSome, rfl⟩
  rcases List.map_eq_append_iff.mp hTokens with
    ⟨front, back, rfl, rfl, rfl⟩
  refine ⟨{ s' with tokens := back ++ s'.tokens },
    ⟨front, rfl, ?_, ?_⟩, ⟨back, rfl, hSome, rfl⟩⟩
  · exact List.append_ne_nil_of_right_ne_nil back hSome
  · rw [List.append_assoc]

theorem lookahead_eq
    (hAhead : s.Ahead (t :: tokens) s') :
    s.lookahead = t := by
  rcases hAhead with ⟨lexemes, hTokens, -, rfl⟩
  rcases List.map_eq_cons_iff.mp hTokens with
    ⟨lexeme, rest, rfl, rfl, -⟩
  rfl

theorem advance
    (hAhead : s.Ahead (t :: tokens) s') :
    ∃ s₁, Parse.advance s = .ok () s₁ ∧
      s.left = s₁.left + 1 ∧ s₁.Ahead tokens s' := by
  rcases hAhead with ⟨lexemes, hTokens, hSome, rfl⟩
  rcases List.map_eq_cons_iff.mp hTokens with
    ⟨lexeme, rest, rfl, -, rfl⟩
  refine ⟨{ s' with tokens := rest ++ s'.tokens }, ?_, rfl,
    rest, rfl, hSome, rfl⟩
  have hMore : rest ++ s'.tokens ≠ [] :=
    List.append_ne_nil_of_right_ne_nil rest hSome
  change Parse.settle { s' with
    tokens := rest ++ s'.tokens } = _
  rcases List.exists_cons_of_ne_nil hMore with
    ⟨first, others, hEq⟩
  rw [hEq]
  rfl

theorem expect
    (hAhead : s.Ahead (t :: tokens) s') :
    ∃ s₁, Parse.expect t s = .ok () s₁ ∧
      s₁.Ahead tokens s' := by
  rcases hAhead.advance with ⟨s₁, hAdvance, -, hMore⟩
  refine ⟨s₁, ?_, hMore⟩
  rw [Parse.expect, Step.get_bind,
    if_pos hAhead.lookahead_eq, hAdvance]

theorem accept
    (hAhead : s.Ahead (t :: tokens) s') :
    ∃ s₁, Parse.accept t s = .ok true s₁ ∧
      s₁.Ahead tokens s' := by
  rcases hAhead.advance with ⟨s₁, hAdvance, -, hMore⟩
  refine ⟨s₁, ?_, hMore⟩
  rw [Parse.accept, Step.get_bind,
    if_pos hAhead.lookahead_eq]
  exact Step.bind_eq_ok.mpr ⟨(), s₁, hAdvance, rfl⟩

end Ahead

end Parser

theorem Parse.accept_of_ne
    {s : Parser}
    {t : Token}
    (hOther : s.lookahead ≠ t) :
    Parse.accept t s = .ok false s := by
  rw [Parse.accept, Step.get_bind, if_neg hOther]
  rfl

end Bracketry
