import Bracketry.Program.Parser
import Bracketry.Proofs.Scope.Globals
import Bracketry.Proofs.Stmt.Reading

/-
  This file says which records and functions can be read,
  one after the other, and what is known behind them.

  A header opens a frame for its parameters, which is left
  again behind the body.  It belongs to the function
  declared before under its name, or it declares a new one.

  Main declarations:
    * `Program.Headed` and `Program.Read`
    * `Program.whole_leads` and `Program.read_of_parse`
-/

namespace Bracketry

------------------------------------------------------------
-- Functions that are Read
------------------------------------------------------------

namespace Context

/- Nothing has been read. -/
def start : Context :=
  ⟨.empty, 0, none⟩

/- With other functions and records. -/
def withGlobals
    (c : Context)
    (globals : Globals) : Context :=
  { c with scope := { c.scope with globals := globals } }

/- Into the body of a function. -/
def enterFunction
    (c : Context)
    (p : Prototype)
    (params : List Identifier) : Context :=
  { c with
    scope :=
      { c.scope with
        globals := c.scope.globals.implement p.id params }
    function := some ⟨p.name.name, p.returnType⟩ }

/- Out of the body of a function. -/
def leaveFunction (c : Context) : Context :=
  { c with scope := c.scope.leave, function := none }

end Context

/- Identifiers are declared one after the other. -/
inductive Scope.Declares : Scope → List Identifier →
    Scope → Prop
| nil {s : Scope} :
    Scope.Declares s [] s
| cons {s s₁ s₂ : Scope} {x : Identifier}
    {rest : List Identifier} (hFirst : s.declare x = .ok s₁)
    (hRest : Scope.Declares s₁ rest s₂) :
    Scope.Declares s (x :: rest) s₂

namespace Scope.Named

variable {N : String → Prop} {σ : Scope} {line : Nat}
variable {globals : Globals}

theorem declareRecord
    {name : String}
    {members : List (String × Ty)}
    {r : Record}
    (hNamed : σ.Named N)
    (hName : N name)
    (hOk :
      σ.globals.declareRecord name members line =
        .ok (r, globals)) :
    Scope.Named N { σ with globals := globals } := by
  rw [Globals.declareRecord_eq] at hOk
  split at hOk <;> cases hOk
  exact ⟨hNamed.vars, hNamed.headers,
    List.forall_mem_append.mpr
    ⟨hNamed.records, List.forall_mem_singleton.mpr hName⟩⟩

theorem declarePrototype
    {name : Identifier}
    {params : List Identifier}
    {p : Prototype}
    (hNamed : σ.Named N)
    (hName : N name.name)
    (hOk :
      σ.globals.declarePrototype name params line =
        .ok (p, globals)) :
    Scope.Named N { σ with globals := globals } := by
  rw [Globals.declarePrototype_eq] at hOk
  split at hOk <;> cases hOk
  exact ⟨hNamed.vars, List.forall_mem_append.mpr
    ⟨hNamed.headers, List.forall_mem_singleton.mpr hName⟩,
    hNamed.records⟩

end Scope.Named

namespace Parser.Named

variable {N : String → Prop} {s : Parser}

/- A header keeps its name. -/
theorem implement
    (hNamed : s.Named N)
    (id : Nat)
    (params : List Identifier)
    (enclosing : Option Enclosing) :
    { s with
      scope :=
        { s.scope with
          globals := s.scope.globals.implement id params }
      function := enclosing }.Named N := by
  refine ⟨hNamed.ahead, hNamed.scope.vars, ?_,
    hNamed.scope.records⟩
  intro p (hMem : p ∈
    (s.scope.globals.implement id params).prototypes)
  have hIn :=
    List.mem_map_of_mem (f := fun p => p.name.name) hMem
  rw [Globals.map_implement _ fun _ => rfl] at hIn
  rcases List.mem_map.mp hIn with ⟨old, hOld, hEq⟩
  exact hEq ▸ hNamed.scope.headers old hOld

end Parser.Named

namespace Program

/- The parameters of a header, in a frame of their own. -/
structure Parameters
    (c : Context)
    (params : List Identifier)
    (scope : Scope) : Prop where
  spelled : ∀ x ∈ params, x.ty.Spelled c.scope.globals
  specified : ∀ x ∈ params, x.ty.IsFullySpecified
  solid : ∀ x ∈ params, x.ty ≠ .void
  bound : ∀ x ∈ params, x.binding = .argument
  declared : c.enter.scope.Declares params scope

/- The prototype that a header belongs to. -/
inductive Headed
    (c : Context)
    (returnType : Ty)
    (params : List Identifier)
    (hasBody : Bool) : Prototype → Context → Prop
| known {name : String} {p : Prototype}
    (hFind : c.scope.globals.prototype? name = some p)
    (hSignature : p.HasSignature returnType params)
    (hFree : ¬ (hasBody && p.implemented) = true) :
    Headed c returnType params hasBody p c
| new {name : String} {line : Nat} {p : Prototype}
    {globals : Globals} (hOk :
      c.scope.globals.declarePrototype
        ⟨name, returnType, .global, line⟩ params line =
          .ok (p, globals)) :
    Headed c returnType params hasBody p
      (c.withGlobals globals)

/- Records and functions; those with a body are given. -/
inductive Read : Context → List FunctionDef → Context → Prop
| nil {c : Context} :
    Read c [] c
| record {c c' : Context} {fields : List Field}
    {name : String} {line : Nat} {r : Record}
      {globals : Globals}
    {fs : List FunctionDef}
    (hSpelled : ∀ field ∈ fields,
      field.ty.Spelled c.scope.globals)
    (hSpecified : ∀ field ∈ fields,
      field.ty.IsFullySpecified)
    (hNames : Field.repeated? [] fields = none)
    (hOk :
      c.scope.globals.declareRecord name
        (fields.map fun field => (field.name, field.ty))
          line = .ok (r, globals))
    (hRest : Read (c.withGlobals globals) fs c') :
    Read c fs c'
| header {c c₁ c' : Context} {returnType : Ty}
    {scope : Scope} {params : List Identifier}
      {p : Prototype} {fs : List FunctionDef}
    (hReturn : returnType.Spelled c.scope.globals)
    (hParams : Parameters c params scope)
    (hHead :
      Headed { c with scope := scope } returnType params
        false p c₁)
    (hRest : Read c₁.leave fs c') :
    Read c fs c'
| function {c c₁ c₂ c' : Context} {returnType : Ty}
    {scope : Scope} {params : List Identifier}
      {p : Prototype} {sts : List Stmt}
    {start line : Nat} {fs : List FunctionDef}
    (hReturn : returnType.Spelled c.scope.globals)
    (hParams : Parameters c params scope)
    (hHead :
      Headed { c with scope := scope } returnType params
        true p c₁)
    (hBody : Stmt.ReadAll (c₁.enterFunction p params) sts
      c₂)
    (hRest : Read c₂.leaveFunction fs c') :
    Read c
      (⟨{ p with implemented := true, params := params },
        .ofList sts start, line⟩ :: fs)
      c'

theorem Read.append
    {c c₁ c₂ : Context}
    {fs gs : List FunctionDef}
    (hFirst : Read c fs c₁)
    (hRest : Read c₁ gs c₂) :
    Read c (fs ++ gs) c₂ := by
  induction hFirst with
  | nil => exact hRest
  | record hSpelled hSpecified hNames hOk _ ih =>
      exact .record hSpelled hSpecified hNames hOk
        (ih hRest)
  | header hReturn hParams hHead _ ih =>
      exact .header hReturn hParams hHead (ih hRest)
  | function hReturn hParams hHead hBody _ ih =>
      exact .function hReturn hParams hHead hBody (ih hRest)

open Parse

variable {N : String → Prop} {c : Context}

theorem record_leads :
    Leads N c
      (fun _ c' => Read c [] c' ∧
        c'.scope.globals.prototypes =
          c.scope.globals.prototypes)
      record := by
  apply Gives.advance.bind
  intro _ _
  apply Leads.get_bind
  intro s _
  apply Gives.identifier.bind
  intro name hName
  apply Field.parseList_gives.bind
  intro fields hFields
  apply (Gives.expect _).bind
  intro _ _
  apply (Gives.accept _).bind
  intro _ _
  split
  · exact .bind (R := fun _ _ => False)
      (.throw fun _ => Cause.noConfusion)
      fun _ _ hFalse => hFalse.elim
  · rename_i hRepeats
    have hNames : Field.repeated? [] fields = none := by
      cases hRepeated : Field.repeated? [] fields with
      | none => rfl
      | some field =>
          exact absurd hRepeated (hRepeats field)
    refine .bind (R := fun _ => _) (.onScope
      (Scope.onGlobals_refuses
        (Globals.addRecord_refuses _ _ _))
      ?_) fun _ _ hRead => .pure hRead
    intro r _ hNamed hStep
    rcases Scope.onGlobals_eq_ok hStep with
      ⟨globals, hOk, rfl⟩
    refine ⟨⟨?_, (Globals.Extends.declareRecord hOk).2.1⟩,
      hNamed.declareRecord hName hOk⟩
    exact .record
      (fun field hMem => (hFields field hMem).spelled)
      (fun field hMem => (hFields field hMem).specified)
        hNames
      hOk .nil

------------------------------------------------------------
-- Reading Functions
------------------------------------------------------------

/- The parameter that a field stands for. -/
def parameter (field : Field) : Identifier :=
  ⟨field.name, field.ty, .argument, field.line⟩

theorem parameters_leads
    {fields : List Field}
    (hFields : ∀ field ∈ fields, N field.name) :
    Leads N c
      (fun params c' =>
        params = fields.map parameter ∧
          (∀ field ∈ fields, field.ty ≠ .void) ∧
          ∃ scope,
            c.scope.Declares params scope ∧
              c' = { c with scope := scope })
      (parameters fields) := by
  induction fields generalizing c with
  | nil => exact .pure ⟨rfl, by simp, c.scope, .nil, rfl⟩
  | cons field rest ih =>
      rcases List.forall_mem_cons.mp hFields with
        ⟨hName, hNames⟩
      rw [parameters]
      apply Leads.refuse (.mistyped _ _)
      intro hVoid
      apply Leads.bind (.declare hName)
      rintro _ _ ⟨scope, hFirst, rfl⟩
      apply (ih hNames).bind
      rintro _ _ ⟨rfl, hOthers, scope', hRest, rfl⟩
      exact .pure
        ⟨rfl, List.forall_mem_cons.mpr ⟨hVoid, hOthers⟩,
        scope', .cons hFirst hRest, rfl⟩

theorem prototype_leads
    {name : String}
    (hName : N name)
    (returnType : Ty)
    (params : List Identifier)
    (hasBody : Bool)
    (line : Nat) :
    Leads N c (Headed c returnType params hasBody)
      (prototype name returnType params hasBody line) := by
  apply Leads.get_named
  rintro s hNamed rfl
  split
  · rename_i p hFind
    apply Leads.require (.throw fun _ => Cause.noConfusion)
    intro hSignature
    apply Leads.refuse (.throw fun _ => Cause.noConfusion)
    intro hFree
    exact .pure (.known hFind hSignature hFree)
  · refine .onScope (Scope.onGlobals_refuses
      (Globals.addPrototype_refuses _ _ _)) ?_
    intro p _ hNamed hStep
    rcases Scope.onGlobals_eq_ok hStep with
      ⟨globals, hOk, rfl⟩
    exact ⟨.new hOk, hNamed.declarePrototype hName hOk⟩

theorem body_leads
    (p : Prototype)
    (params : List Identifier)
    (line : Nat) :
    Leads N c
      (fun f c' =>
        ∃ sts start c₁,
          f =
            ⟨{ p with
              implemented := true, params := params },
            .ofList sts start, line⟩ ∧
          Stmt.ReadAll (c.enterFunction p params) sts c₁ ∧
          c' = c₁.leaveFunction)
      (body p params line) := by
  have hEnter :
      Leads N c (fun _ c' => c' = c.enterFunction p params)
        (modify fun s =>
          { s with
            scope :=
              { s.scope with
                globals :=
                  s.scope.globals.implement p.id params }
            function :=
              some ⟨p.name.name, p.returnType⟩ }) := by
    refine Leads.of_modify ?_
      (fun _ hNamed => hNamed.implement _ _ _) fun _ => rfl
    rintro s rfl
    rfl
  have hLeave :
      ∀ c : Context,
        Leads N c (fun _ c' => c' = c.leaveFunction)
          (modify fun s =>
            { s with
              scope := s.scope.leave,
              function := none }) := by
    intro c
    refine Leads.of_modify ?_ (fun _ hNamed => hNamed.leave)
      fun _ => rfl
    rintro s rfl
    rfl
  apply hEnter.bind
  rintro _ _ rfl
  apply (Stmt.braced_leads Stmt.parse_leads).bind
  rintro _ c₁ ⟨sts, start, rfl, hAll⟩
  apply (hLeave c₁).bind
  rintro _ _ rfl
  exact .pure ⟨sts, start, c₁, rfl, hAll, rfl⟩

theorem function_leads :
    Leads N c (fun found c' => Read c found.toList c')
      function := by
  apply Ty.parseName_gives.bind
  intro base hBase
  apply (Ty.parseDimensions_gives hBase).bind
  rintro returnType ⟨hReturn, -⟩
  apply Leads.get_bind
  intro s _
  apply Gives.identifier.bind
  intro name hName
  apply Field.parseList_gives.bind
  intro fields hFields
  apply (Gives.expect _).bind
  intro _ _
  apply Leads.enter.bind
  rintro _ _ rfl
  apply (parameters_leads fun field hMem =>
    (hFields field hMem).named).bind
  rintro _ _ ⟨rfl, hSolid, scope, hDeclares, rfl⟩
  have hParams :
      Parameters c (fields.map parameter) scope :=
    { spelled := List.forall_mem_map.mpr fun f hMem =>
        (hFields f hMem).spelled
      specified := List.forall_mem_map.mpr fun f hMem =>
        (hFields f hMem).specified
      solid := List.forall_mem_map.mpr hSolid
      bound := List.forall_mem_map.mpr fun _ _ => rfl
      declared := hDeclares }
  apply Leads.get_bind
  intro s₁ _
  apply (prototype_leads hName returnType _ _ s.line).bind
  intro p c₁ hHead
  split
  · rename_i hBody
    rw [hBody] at hHead
    apply (body_leads p _ s.line).bind
    rintro f c₂ ⟨sts, start, c₂, rfl, hAll, rfl⟩
    exact .pure (.function hReturn hParams hHead hAll .nil)
  · rename_i hBody
    rw [Bool.eq_false_iff.mpr hBody] at hHead
    apply Gives.advance.bind
    intro _ _
    apply Leads.leave.bind
    rintro _ _ rfl
    exact .pure (.header hReturn hParams hHead .nil)

theorem topLevel_leads :
    Leads N c (fun found c' => Read c found.toList c')
      topLevel := by
  apply (Gives.expect _).bind
  intro _ _
  apply Leads.get_bind
  intro s _
  split
  · apply record_leads.bind
    rintro _ c' ⟨hRead, -⟩
    exact .pure hRead
  · exact function_leads

theorem constructs_leads
    (turns : Nat) :
    Leads N c (Read c) (constructs turns) := by
  induction turns generalizing c with
  | zero => exact .pure .nil
  | succ turns ih =>
      apply Leads.get_bind
      intro s _
      split
      · apply topLevel_leads.bind
        intro first c₁ hFirst
        apply ih.bind
        intro rest c₂ hRest
        exact .pure (hFirst.append hRest)
      · exact .pure .nil

theorem whole_leads :
    Leads N c
      (fun p c' => Read c p.functions c' ∧
        p.globals = c'.scope.globals)
      whole := by
  apply Gives.settle.bind
  intro _ _
  apply Leads.get_bind
  intro s _
  apply (constructs_leads s.left).bind
  intro functions c' hRead
  apply Leads.get_bind
  intro s₁ _
  apply Leads.require (.unexpected _)
  intro _
  apply Leads.get_bind
  rintro s₂ rfl
  exact .pure ⟨hRead, rfl⟩

/- How a program that is read came about. -/
theorem read_of_parse
    {text : String}
    {p : Program}
    (hParse : Program.parse text = .ok p) :
    ∃ c, Read .start p.functions c ∧
      p.globals = c.scope.globals := by
  unfold Program.parse at hParse
  split at hParse
  · rename_i s' hRead
    cases hParse
    exact ⟨s'.context, whole_leads.of_ok _ p s' rfl hRead⟩
  · cases hParse

end Program

end Bracketry
