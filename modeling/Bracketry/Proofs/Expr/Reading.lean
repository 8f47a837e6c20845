import Bracketry.Expr.Parser
import Bracketry.Proofs.Parser

/-
  This file says which expressions can be read at a point of
  a program.

  Each node is built by a check from nodes that were read
  before it, names are looked up in the scope, and reading
  an expression changes nothing of what is known.  What
  holds of all expressions that are read is shown by
  induction on how they are built.

  Main declarations:
    * `Place.Read` and `Expr.Read`
    * `Expr.parse_gives` and `Expr.access_gives`
-/

namespace Bracketry

mutual

/- Parts of a variable that is in sight. -/
inductive Place.Read (σ : Scope) : Place → Prop
| var {name : String} {x : Identifier}
    (hLookup : σ.lookup name = some (.var x)) :
    Place.Read σ (.var x)
| element {parent : Place} {index : Expr} {n : Nat} {t : Ty}
    (hParent : parent.Read σ)
    (hIndex : index.Read σ)
    (hIntegral : index.ty.IsIntegral)
    (hArray : parent.ty = .array n t) :
    Place.Read σ (.element parent index t)
| member {parent : Place} {serial position : Nat}
    {record name : String} {members : List (String × Ty)}
      {t : Ty}
    (hParent : parent.Read σ)
    (hRecord : parent.ty = .record serial record members)
    (hFind : findMember? members name =
      some (position, t)) :
    Place.Read σ (.member parent position name t)

/- Expressions built by the checks, from names in sight. -/
inductive Expr.Read (σ : Scope) : Expr → Prop
| integer {value : Int} {line : Nat} {e : Expr}
    (hOk : Expr.ofInteger value line = .ok e) :
    Expr.Read σ e
| float (value : Double) (line : Nat) :
    Expr.Read σ (.float value line)
| boolean (value : Bool) (line : Nat) :
    Expr.Read σ (.boolean value line)
| string (value : String) (line : Nat) :
    Expr.Read σ (Expr.ofString value line)
| elements {first : Expr} {rest : List Expr} {line : Nat}
    {e : Expr} (hElements : ∀ element ∈ first :: rest,
      element.Read σ)
    (hConstant : ∀ element ∈ first :: rest,
      element.isConstant = true)
    (hOk : Expr.ofElements first rest line = .ok e) :
    Expr.Read σ e
| read {place : Place}
    (hPlace : place.Read σ)
    (line : Nat) :
    Expr.Read σ (.read place line)
| call {callee : Prototype} {args : List Expr} {line : Nat}
    {e : Expr} (hKnown : callee ∈ σ.globals.prototypes)
    (hArgs : ∀ arg ∈ args, arg.Read σ)
    (hOk : Expr.ofCall callee args line = .ok e) :
    Expr.Read σ e
| negation {operand : Expr} {line : Nat} {e : Expr}
    (hOperand : operand.Read σ)
    (hOk : Expr.ofNegation operand line = .ok e) :
    Expr.Read σ e
| inversion {operand : Expr} {line : Nat} {e : Expr}
    (hOperand : operand.Read σ)
    (hOk : Expr.ofInversion operand line = .ok e) :
    Expr.Read σ e
| arithmetic {op : Arithmetic} {left right : Expr}
    {line : Nat} {e : Expr} (hLeft : left.Read σ)
    (hRight : right.Read σ)
    (hOk : Expr.joinArithmetic op left right line = .ok e) :
    Expr.Read σ e
| compare {op : Comparison} {left right : Expr} {line : Nat}
    {e : Expr} (hLeft : left.Read σ)
    (hRight : right.Read σ)
    (hOk : Expr.joinCompare op left right line = .ok e) :
    Expr.Read σ e
| and {left right : Expr} {line : Nat} {e : Expr}
    (hLeft : left.Read σ)
    (hRight : right.Read σ)
    (hOk : Expr.joinAnd left right line = .ok e) :
    Expr.Read σ e
| or {left right : Expr} {line : Nat} {e : Expr}
    (hLeft : left.Read σ)
    (hRight : right.Read σ)
    (hOk : Expr.joinOr left right line = .ok e) :
    Expr.Read σ e

end

/- A function that is found has a header. -/
theorem Scope.mem_of_lookup
    {σ : Scope}
    {name : String}
    {p : Prototype}
    (hLookup : σ.lookup name = some (.func p)) :
    p ∈ σ.globals.prototypes := by
  unfold Scope.lookup at hLookup
  split at hLookup
  · cases hLookup
  · rcases Option.map_eq_some_iff.mp hLookup with
      ⟨found, hFound, hEq⟩
    cases hEq
    exact List.mem_of_find?_eq_some hFound

namespace Expr

open Parse

variable {N : String → Prop} {c : Context}

open Fault (Spares)

theorem requireCondition_spares
    (e : Expr)
    (line : Nat) :
    Spares (e.requireCondition line) := by
  unfold requireCondition
  split
  · exact .ok
  · exact .error Cause.noConfusion

theorem ofInteger_spares
    (value : Int)
    (line : Nat) :
    Spares (ofInteger value line) := by
  unfold ofInteger
  split
  · exact .ok
  · exact .error Cause.noConfusion

theorem joinOr_spares
    (left right : Expr)
    (line : Nat) :
    Spares (joinOr left right line) :=
  (requireCondition_spares left line).bind fun _ =>
    (requireCondition_spares right line).bind fun _ => .ok

theorem joinAnd_spares
    (left right : Expr)
    (line : Nat) :
    Spares (joinAnd left right line) :=
  (requireCondition_spares left line).bind fun _ =>
    (requireCondition_spares right line).bind fun _ => .ok

theorem joinCompare_spares
    (op : Comparison)
    (left right : Expr)
    (line : Nat) :
    Spares (joinCompare op left right line) := by
  unfold joinCompare
  split
  · exact .ok
  · exact .error Cause.noConfusion

theorem joinArithmetic_spares
    (op : Arithmetic)
    (left right : Expr)
    (line : Nat) :
    Spares (joinArithmetic op left right line) := by
  unfold joinArithmetic
  split
  · exact .ok
  · exact .error Cause.noConfusion

theorem ofNegation_spares
    (operand : Expr)
    (line : Nat) :
    Spares (ofNegation operand line) := by
  unfold ofNegation
  split
  · exact .ok
  · split
    · exact .ok
    · exact .error Cause.noConfusion

theorem ofInversion_spares
    (operand : Expr)
    (line : Nat) :
    Spares (ofInversion operand line) := by
  unfold ofInversion
  split
  · exact .ok
  · exact (requireCondition_spares _ _).bind fun _ => .ok

theorem checkArguments_spares :
    ∀ (args : List Expr) (params : List Ty),
      Spares (checkArguments args params)
| [], _ => .ok
| _ :: _, [] => .ok
| arg :: args, param :: params => by
    rw [checkArguments]
    split
    · exact checkArguments_spares args params
    · exact .error Cause.noConfusion

theorem ofCall_spares
    (callee : Prototype)
    (args : List Expr)
    (line : Nat) :
    Spares (ofCall callee args line) := by
  unfold ofCall
  dsimp only
  split
  · exact .error Cause.noConfusion
  · exact (checkArguments_spares _ _).bind fun _ => .ok

theorem commonType_spares :
    ∀ (t : Ty) (es : List Expr), Spares (commonType t es)
| _, [] => .ok
| t, e :: rest => by
    rw [commonType]
    split
    · exact commonType_spares _ rest
    · exact .error Cause.noConfusion

theorem ofElements_spares
    (first : Expr)
    (rest : List Expr)
    (line : Nat) :
    Spares (ofElements first rest line) :=
  (commonType_spares _ _).bind fun _ => .ok

------------------------------------------------------------
-- Levels of Precedence
------------------------------------------------------------

/- The operators of a level join what is read. -/
def Level.Joins
    (σ : Scope)
    (level : Level) : Prop :=
  ∀ token join, level token = some join → ∀ left right line,
    Spares (join left right line) ∧
      ∀ e, left.Read σ → right.Read σ →
        join left right line = .ok e → e.Read σ

theorem levels_join
    (σ : Scope) :
    ∀ level ∈ levels, Level.Joins σ level := by
  have hOr : Level.Joins σ orLevel := by
    intro token join hJoin left right line
    unfold orLevel at hJoin
    split at hJoin <;> cases hJoin
    exact ⟨joinOr_spares left right line, fun _ => .or⟩
  have hAnd : Level.Joins σ andLevel := by
    intro token join hJoin left right line
    unfold andLevel at hJoin
    split at hJoin <;> cases hJoin
    exact ⟨joinAnd_spares left right line, fun _ => .and⟩
  have hEquality : Level.Joins σ equalityLevel := by
    intro token join hJoin left right line
    unfold equalityLevel at hJoin
    split at hJoin <;> cases hJoin <;>
      exact ⟨joinCompare_spares _ left right line,
        fun _ => .compare⟩
  have hOrder : Level.Joins σ orderLevel := by
    intro token join hJoin left right line
    unfold orderLevel at hJoin
    split at hJoin <;> cases hJoin <;>
      exact ⟨joinCompare_spares _ left right line,
        fun _ => .compare⟩
  have hSum : Level.Joins σ sumLevel := by
    intro token join hJoin left right line
    unfold sumLevel at hJoin
    split at hJoin <;> cases hJoin <;>
      exact ⟨joinArithmetic_spares _ left right line,
        fun _ => .arithmetic⟩
  have hProduct : Level.Joins σ productLevel := by
    intro token join hJoin left right line
    unfold productLevel at hJoin
    split at hJoin <;> cases hJoin <;>
      exact ⟨joinArithmetic_spares _ left right line,
        fun _ => .arithmetic⟩
  simp [levels, hOr, hAnd, hEquality, hOrder, hSum,
    hProduct]

variable {operand expression : Parse Expr}

theorem operands_gives
    {level : Level}
    (hLevel : level.Joins c.scope)
    (hOperand : Gives N c (Read c.scope) operand)
    (turns : Nat)
    {left : Expr}
    (hLeft : left.Read c.scope) :
    Gives N c (Read c.scope)
      (operands level operand turns left) := by
  induction turns generalizing left with
  | zero => exact Gives.pure hLeft
  | succ turns ih =>
      apply Leads.get_bind
      intro s _
      split
      · exact Gives.pure hLeft
      · rename_i join hJoin
        apply Gives.advance.bind
        intro _ _
        apply hOperand.bind
        intro right hRight
        rcases hLevel _ join hJoin left right s.line with
          ⟨hSpares, hJoined⟩
        apply Leads.check hSpares
        intro joined hOk
        exact ih (hJoined joined hLeft hRight hOk)

theorem binary_gives
    {level : Level}
    (hLevel : level.Joins c.scope)
    (hOperand : Gives N c (Read c.scope) operand) :
    Gives N c (Read c.scope) (binary level operand) := by
  apply hOperand.bind
  intro first hFirst
  apply Leads.get_bind
  intro s _
  exact operands_gives hLevel hOperand s.left hFirst

theorem ladder_gives
    (hOperand : Gives N c (Read c.scope) operand) :
    Gives N c (Read c.scope) (ladder operand) := by
  have hLadder :
      ∀ ls : List Level,
        (∀ level ∈ ls, level.Joins c.scope) →
        Gives N c (Read c.scope)
          (ls.foldr binary operand) := by
    intro ls hJoins
    induction ls with
    | nil => exact hOperand
    | cons level rest ih =>
        rcases List.forall_mem_cons.mp hJoins with
          ⟨hLevel, hRest⟩
        exact binary_gives hLevel (ih hRest)
  exact hLadder levels (levels_join c.scope)

theorem unaryUpTo_gives
    {primary : Parse Expr}
    (hPrimary : Gives N c (Read c.scope) primary)
    (turns : Nat) :
    Gives N c (Read c.scope) (unaryUpTo primary turns) := by
  induction turns with
  | zero => exact hPrimary
  | succ turns ih =>
      apply Leads.get_bind
      intro s _
      split
      · apply Gives.advance.bind
        intro _ _
        apply Leads.get_bind
        intro s₁ _
        split
        · apply Gives.advance.bind
          intro _ _
          exact Gives.ofExcept (ofInteger_spares _ _)
            fun e hOk => .integer hOk
        · apply Gives.advance.bind
          intro _ _
          exact Gives.pure (.float _ _)
        · apply ih.bind
          intro operand hOperand
          exact Gives.ofExcept (ofNegation_spares _ _)
            fun e hOk =>
              .negation hOperand hOk
      · apply Gives.advance.bind
        intro _ _
        apply ih.bind
        intro operand hOperand
        exact Gives.ofExcept (ofInversion_spares _ _)
          fun e hOk =>
            .inversion hOperand hOk
      · exact hPrimary

theorem unary_gives
    {primary : Parse Expr}
    (hPrimary : Gives N c (Read c.scope) primary) :
    Gives N c (Read c.scope) (unary primary) := by
  apply Leads.get_bind
  intro s _
  exact unaryUpTo_gives hPrimary s.left

theorem accessUpTo_gives
    (hExpression : Gives N c (Read c.scope) expression)
    (turns : Nat)
    {place : Place}
    (hPlace : place.Read c.scope) :
    Gives N c (Place.Read c.scope)
      (accessUpTo expression turns place) := by
  induction turns generalizing place with
  | zero => exact Gives.pure hPlace
  | succ turns ih =>
      apply Leads.get_bind
      intro s _
      split
      · split
        · rename_i n element hArray
          apply Gives.advance.bind
          intro _ _
          apply hExpression.bind
          intro index hIndex
          apply Leads.require (.mistyped _ _)
          intro hIntegral
          apply (Gives.expect _).bind
          intro _ _
          exact ih (.element hPlace hIndex hIntegral hArray)
        · rename_i serial record members hRecord
          apply Gives.advance.bind
          intro _ _
          apply Gives.identifier.bind
          intro name _
          split
          · rename_i position t hFind
            apply (Gives.expect _).bind
            intro _ _
            exact ih (.member hPlace hRecord hFind)
          · exact .throw fun _ => Cause.noConfusion
        · exact .mistyped _ _
      · exact Gives.pure hPlace

theorem access_gives
    (hExpression : Gives N c (Read c.scope) expression)
    {name : String}
    {x : Identifier}
    (hLookup : c.scope.lookup name = some (.var x)) :
    Gives N c (Place.Read c.scope)
      (access expression x) := by
  apply Leads.get_bind
  intro s _
  exact accessUpTo_gives hExpression s.left (.var hLookup)

theorem callArguments_gives
    (hExpression : Gives N c (Read c.scope) expression)
    {callee : Prototype}
    (hKnown : callee ∈ c.scope.globals.prototypes)
    (line : Nat) :
    Gives N c (Read c.scope)
      (callArguments expression callee line) := by
  have hCall :
      ∀ args : List Expr, (∀ arg ∈ args, arg.Read c.scope) →
        Gives N c (Read c.scope)
          (do
            Parse.expect (.symbol .rightBracket)
            Parse.ofExcept (ofCall callee args line)) := by
    intro args hArgs
    apply (Gives.expect _).bind
    intro _ _
    exact Gives.ofExcept (ofCall_spares _ _ _) fun e hOk =>
      .call hKnown hArgs hOk
  apply (Gives.accept _).bind
  intro more _
  split
  · apply (Gives.separated hExpression).bind
    exact hCall
  · apply hCall
    simp

theorem constant_gives
    (hExpression : Gives N c (Read c.scope) expression) :
    Gives N c (fun e => e.Read c.scope ∧
      e.isConstant = true) (constant expression) := by
  apply hExpression.bind
  intro e hRead
  apply Leads.require (.mistyped _ _)
  intro hConstant
  exact Gives.pure ⟨hRead, hConstant⟩

theorem arrayLiteral_gives
    (hExpression : Gives N c (Read c.scope) expression)
    (line : Nat) :
    Gives N c (Read c.scope)
      (arrayLiteral expression line) := by
  have hConstant := constant_gives hExpression
  apply Leads.get_bind
  intro s _
  apply Leads.refuse (.mistyped _ _)
  intro _
  apply hConstant.bind
  intro first hFirst
  apply Leads.get_bind
  intro s₁ _
  apply (Gives.moreItems hConstant s₁.left).bind
  intro rest hRest
  apply (Gives.expect _).bind
  intro _ _
  have hElements :
      ∀ e ∈ first :: rest, e.Read c.scope ∧
        e.isConstant = true :=
    List.forall_mem_cons.mpr ⟨hFirst, hRest⟩
  exact Gives.ofExcept (ofElements_spares _ _ _)
    fun e hOk =>
      .elements (fun e hMem => (hElements e hMem).1)
        (fun e hMem => (hElements e hMem).2) hOk

theorem bracketed_gives
    (hExpression : Gives N c (Read c.scope) expression)
    (line : Nat) :
    Gives N c (Read c.scope)
      (bracketed expression line) := by
  apply Gives.advance.bind
  intro _ _
  apply Leads.get_bind
  rintro s rfl
  dsimp only
  split
  · rename_i callee hCallee
    have hKnown : callee ∈ s.scope.globals.prototypes := by
      split at hCallee
      · exact List.mem_of_find?_eq_some hCallee
      · cases hCallee
    apply Gives.advance.bind
    intro _ _
    exact callArguments_gives hExpression hKnown line
  · exact arrayLiteral_gives hExpression line

theorem named_gives
    (hExpression : Gives N c (Read c.scope) expression)
    (name : String)
    (line : Nat) :
    Gives N c (Read c.scope)
      (named expression name line) := by
  apply Leads.get_bind
  rintro s rfl
  split
  · rename_i x hLookup
    apply Gives.advance.bind
    intro _ _
    apply (access_gives hExpression hLookup).bind
    intro place hPlace
    exact Gives.pure (.read hPlace line)
  · rename_i callee hLookup
    apply Gives.advance.bind
    intro _ _
    exact Gives.ofExcept (ofCall_spares _ _ _) fun e hOk =>
      .call (Scope.mem_of_lookup hLookup) (by simp) hOk
  · exact .throw fun _ => Cause.noConfusion

theorem grouped_gives
    (hExpression : Gives N c (Read c.scope) expression) :
    Gives N c (Read c.scope) (grouped expression) := by
  apply Gives.advance.bind
  intro _ _
  apply hExpression.bind
  intro e hRead
  apply (Gives.expect _).bind
  intro _ _
  exact Gives.pure hRead

theorem primary_gives
    (hExpression : Gives N c (Read c.scope) expression) :
    Gives N c (Read c.scope) (primary expression) := by
  apply Leads.get_bind
  intro s _
  split
  · exact grouped_gives hExpression
  · exact bracketed_gives hExpression s.line
  · exact named_gives hExpression _ s.line
  · apply Gives.advance.bind
    intro _ _
    exact Gives.ofExcept (ofInteger_spares _ _) fun e hOk =>
      .integer hOk
  · apply Gives.advance.bind
    intro _ _
    exact Gives.pure (.float _ _)
  · apply Gives.advance.bind
    intro _ _
    exact Gives.pure (.boolean _ _)
  · apply Gives.advance.bind
    intro _ _
    exact Gives.pure (.string _ _)
  · exact .unexpected _

/- Expressions are built so, however deep they nest. -/
theorem nested_gives
    (depth : Nat) :
    Gives N c (Read c.scope) (nested depth) := by
  induction depth with
  | zero => exact .unexpected _
  | succ depth ih =>
      exact ladder_gives (unary_gives (primary_gives ih))

theorem parse_gives :
    Gives N c (Read c.scope) parse := by
  apply Leads.get_bind
  intro s _
  exact nested_gives s.left

end Expr

end Bracketry
