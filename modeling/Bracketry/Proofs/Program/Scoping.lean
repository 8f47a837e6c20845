import Bracketry.Proofs.Program.Acceptance
import Bracketry.Proofs.Stmt.Straying

/-
  This file says what is known where the body of a function
  starts, and what follows for the whole function: no two of
  its variables share a slot, and a variable that strays was
  declared bare.

  Main declarations:
    * `FunctionDef.strays` and `FunctionDef.bare`
    * `FunctionDef.eq_of_storage`
    * `FunctionDef.bare_of_strays`
-/

namespace Bracketry

variable {c : Context} {base k : Nat}

------------------------------------------------------------
-- Variables of Functions
------------------------------------------------------------

variable {s s' : Scope} {xs : List Identifier}

/- Parameters are declared in the first frame. -/
theorem Scope.Declares.extends
    (hDeclares : s.Declares xs s') :
    s.Extends s' := by
  induction hDeclares with
  | nil => exact .refl _
  | cons hFirst _ ih =>
      exact (Extends.declare hFirst).trans ih

theorem Scope.Local.declares
    {name : String}
    (hLocal : s.Local base name)
    (hCurrent : s.current = some base)
    (hArguments : ∀ x ∈ xs, x.binding = .argument)
    (hDeclares : s.Declares xs s') :
    s'.Local base name ∧ ∀ x ∈ xs, s'.Holds base x := by
  induction hDeclares with
  | nil => exact ⟨hLocal, by simp⟩
  | @cons s s₁ s₂ x rest hFirst hRest ih =>
      rcases List.forall_mem_cons.mp hArguments with
        ⟨hOne, hOthers⟩
      have hBound :
          ∀ k, s.current = some k →
            (x.binding = .argument ∧ k = base) ∨
              x.binding = .block name k := by
        intro k hAt
        cases hCurrent.symm.trans hAt
        exact .inl ⟨hOne, rfl⟩
      rcases hLocal.declare hBound hFirst with
        ⟨hLocal₁, hHolds⟩
      have hCurrent₁ : s₁.current = some base :=
        (Extends.declare hFirst).current.trans hCurrent
      rcases ih hLocal₁ hCurrent₁ hOthers with
        ⟨hLocal₂, hAll⟩
      exact ⟨hLocal₂,
        List.forall_mem_cons.mpr
          ⟨hRest.extends.holds hHolds, hAll⟩⟩

theorem Scope.Declares.of_holds
    {x : Identifier}
    (hDeclares : s.Declares xs s')
    (hHolds : s'.Holds base x) :
    x ∈ xs ∨ s.Holds base x := by
  induction hDeclares with
  | nil => exact .inr hHolds
  | @cons _ _ _ y _ hFirst _ ih =>
      rcases ih hHolds with hIn | hBefore
      · exact .inl (List.mem_cons_of_mem y hIn)
      · rcases holds_of_declare hFirst hBefore with
          rfl | hOld
        · exact .inl List.mem_cons_self
        · exact .inr hOld

/- A name that the frame has is not declared again. -/
theorem Scope.Declares.name_ne
    {frame : Frame}
    {y : Identifier}
    (hDeclares : s.Declares xs s')
    (hCurrent : s.current = some k)
    (hFrame : s.frames[k]? = some frame)
    (hMem : y ∈ frame.declared) :
    ∀ x ∈ xs, y.name ≠ x.name := by
  induction hDeclares generalizing frame with
  | nil => simp
  | @cons s s₁ s₂ x rest hFirst _ ih =>
      rcases declare_eq_ok hFirst with ⟨l, hAt, hNew, -⟩
      cases hCurrent.symm.trans hAt
      have hExtends := Extends.declare hFirst
      rcases hExtends.frames k frame hFrame with
        ⟨frame₁, hFrame₁, -, hKept⟩
      exact List.forall_mem_cons.mpr
        ⟨hNew frame hFrame y hMem,
        ih (hExtends.current.trans hCurrent) hFrame₁
          (hKept y hMem)⟩

/- What is declared in one frame has different names. -/
theorem Scope.Declares.nodup
    {frame : Frame}
    (hDeclares : s.Declares xs s')
    (hCurrent : s.current = some k)
    (hFrame : s.frames[k]? = some frame) :
    (xs.map Identifier.name).Nodup := by
  induction hDeclares generalizing frame with
  | nil => exact List.nodup_nil
  | @cons s s₁ s₂ x rest hFirst hRest ih =>
      have hCurrent₁ : s₁.current = some k :=
        (Extends.declare hFirst).current.trans hCurrent
      rcases declare_eq_ok hFirst with ⟨l, hAt, -, rfl⟩
      cases hCurrent.symm.trans hAt
      have hFrame₁ := getElem?_declared x hFrame
      rw [List.map_cons, List.nodup_cons]
      refine ⟨?_, ih hCurrent₁ hFrame₁⟩
      intro hMem
      rcases List.mem_map.mp hMem with ⟨y, hIn, hName⟩
      exact hRest.name_ne hCurrent₁ hFrame₁
        List.mem_cons_self y hIn hName.symm

/-
  What is known where the body of a function starts, in a
  program that ends up with the functions and records
  `final`.
-/
structure FunctionDef.Begun
    (final : Globals)
    (base : Nat)
    (f : FunctionDef)
    (c : Context) : Prop where
  isLocal : c.scope.Local base f.signature.name.name
  function :
    c.function =
      some ⟨f.signature.name.name, f.signature.returnType⟩
  declared : ∀ x ∈ f.signature.params, c.scope.Holds base x
  held : ∀ x, c.scope.Holds base x → x ∈ f.signature.params
  names : (f.signature.params.map Identifier.name).Nodup
  arguments : ∀ x ∈ f.signature.params, x.binding =
    .argument
  formed : c.scope.globals.Formed
  kept : c.scope.globals.Extends final
  params :
    ∀ x ∈ f.signature.params,
      x.ty.Formed c.scope.globals Ty.LengthOk ∧ x.ty ≠ .void
  returns : f.signature.returnType.Spelled c.scope.globals

theorem FunctionDef.Begun.inside
    {final : Globals}
    {f : FunctionDef}
    (hBegun : f.Begun final base c) :
    c.Inside base f.signature.name.name :=
  ⟨hBegun.isLocal, _, hBegun.function⟩

namespace Program

variable {params : List Identifier} {scope : Scope}
variable {c c' : Context}

/- The frame of a header is opened outside of all others. -/
theorem Parameters.isLocal
    (hParams : Parameters c params scope)
    (hOutside : c.scope.current = none)
    (name : String) :
    scope.Local c.scope.frames.length name ∧
      ∀ x, x ∈ params ↔
        scope.Holds c.scope.frames.length x := by
  rcases (Scope.Local.start hOutside name).declares rfl
    hParams.bound hParams.declared with ⟨hLocal, hHolds⟩
  refine ⟨hLocal, fun x => ⟨hHolds x, fun hHeld => ?_⟩⟩
  apply (hParams.declared.of_holds hHeld).resolve_right
  exact fun hEnter =>
    Scope.not_holds_length c.scope x
      (Scope.holds_of_enter hEnter)

/- The parameters of a function have different names. -/
theorem Parameters.names
    (hParams : Parameters c params scope) :
    (params.map Identifier.name).Nodup :=
  hParams.declared.nodup rfl List.getElem?_concat_length

theorem Parameters.formed
    (hParams : Parameters c params scope) :
    ∀ x ∈ params,
      x.ty.Formed c.scope.globals Ty.LengthOk ∧
        x.ty ≠ .void :=
  fun x hMem =>
    ⟨(hParams.spelled x hMem).positive
      (hParams.specified x hMem), hParams.solid x hMem⟩

theorem Parameters.globals
    {c : Context}
    {params : List Identifier}
    {scope : Scope}
    (hParams : Parameters c params scope) :
    scope.globals = c.scope.globals := by
  have hDeclares :
      ∀ {s s' : Scope} {xs : List Identifier},
        s.Declares xs s' → s'.globals = s.globals := by
    intro s s' xs hDeclares
    induction hDeclares with
    | nil => rfl
    | cons hFirst _ ih =>
        exact ih.trans (Scope.globals_of_declare hFirst)
  have hEnter : c.enter.scope.globals = c.scope.globals :=
    rfl
  rw [← hEnter]
  exact hDeclares hParams.declared

/- Behind a header, its frame is left. -/
theorem leave_of_extends
    {σ : Scope}
    (hOutside : c.scope.current = none)
    (hExtends : c.enter.scope.Extends σ) :
    σ.leave.current = none :=
  (Scope.Extends.block hExtends).current.trans hOutside

section

variable {c c' : Context} {returnType : Ty}
variable {params : List Identifier} {hasBody : Bool}
variable {p : Prototype}

theorem Headed.extends
    (hHead : Headed c returnType params hasBody p c') :
    c.scope.Extends c'.scope := by
  rcases hHead.kept with ⟨-, hFrames, hCurrent, -⟩
  refine ⟨hCurrent, ?_, ?_⟩ <;> rw [hFrames]
  · exact fun _ frame hFrame =>
      ⟨frame, hFrame, rfl, fun _ => id⟩
  · exact fun _ _ hFrame _ => hFrame

theorem Headed.globals
    (hHead : Headed c returnType params hasBody p c') :
    c.scope.globals.Extends c'.scope.globals := by
  cases hHead with
  | known _ _ _ => exact .refl _
  | new hOk =>
      exact (Globals.Extends.declarePrototype hOk).1

theorem Headed.returnType_eq
    (hHead : Headed c returnType params hasBody p c') :
    p.returnType = returnType := by
  cases hHead with
  | known _ hSignature _ => exact hSignature.1
  | new hOk =>
      rw [Prototype.returnType,
        (Globals.Extends.declarePrototype hOk).2.2.2.1]

theorem Headed.formed
    (hHead : Headed c returnType params hasBody p c')
    (hFormed : c.scope.globals.Formed)
    (hReturn : returnType.Spelled c.scope.globals)
    (hParams :
      ∀ x ∈ params,
        x.ty.Formed c.scope.globals Ty.LengthOk ∧
          x.ty ≠ .void) :
    c'.scope.globals.Formed := by
  cases hHead with
  | known _ _ _ => exact hFormed
  | new hOk =>
      exact hFormed.declarePrototype hReturn hParams hOk

end

theorem extends_enterFunction
    (c : Context)
    (p : Prototype)
    (params : List Identifier) :
    c.scope.Extends (c.enterFunction p params).scope :=
  ⟨rfl, fun _ frame hFrame =>
    ⟨frame, hFrame, rfl, fun _ => id⟩,
    fun _ _ hFrame _ => hFrame⟩

section

variable {c c₁ : Context} {returnType : Ty}
variable {params : List Identifier} {hasBody : Bool}
variable {scope : Scope} {p : Prototype}

/- The types of a header are formed and kept. -/
theorem types_of_headed
    (hFormed : c.scope.globals.Formed)
    (hReturn : returnType.Spelled c.scope.globals)
    (hParams : Parameters c params scope)
    (hHead :
      Headed { c with scope := scope } returnType params
        hasBody p c₁) :
    c.scope.globals.Extends c₁.scope.globals ∧
      c₁.scope.globals.Formed ∧
      p.returnType.Spelled c₁.scope.globals ∧
      ∀ x ∈ params,
        x.ty.Formed c₁.scope.globals Ty.LengthOk ∧
          x.ty ≠ .void := by
  have hTypes := hParams.formed
  rw [← hParams.globals] at hFormed hReturn hTypes ⊢
  have hExtends : scope.globals.Extends c₁.scope.globals :=
    hHead.globals
  refine ⟨hExtends, hHead.formed hFormed hReturn hTypes, ?_,
    ?_⟩
  · rw [hHead.returnType_eq]
    exact hReturn.extend hExtends.records
  · exact fun x hMem =>
      ⟨(hTypes x hMem).1.extend hExtends.records,
        (hTypes x hMem).2⟩

/- The body starts in the frame of its header. -/
theorem local_of_headed
    (hOutside : c.scope.current = none)
    (hParams : Parameters c params scope)
    (hHead :
      Headed { c with scope := scope } returnType params
        hasBody p c₁) :
    (c₁.enterFunction p params).scope.Local
        c.scope.frames.length p.name.name ∧
      ∀ x, x ∈ params ↔
        (c₁.enterFunction p params).scope.Holds
          c.scope.frames.length x := by
  have hFrames : c₁.scope.frames = scope.frames :=
    hHead.kept.2.1
  have hCurrent : c₁.scope.current = scope.current :=
    hHead.kept.2.2.1
  rcases hParams.isLocal hOutside p.name.name with
    ⟨hLocal, hHolds⟩
  refine ⟨⟨?_, ?_⟩, fun x => ?_⟩
  · change ∃ k frame, c₁.scope.current = some k ∧ _ ∧
      c₁.scope.frames[k]? = some frame
    rw [hFrames, hCurrent]
    exact hLocal.current
  · change ∀ k frame, _ → c₁.scope.frames[k]? = some frame →
      _
    rw [hFrames]
    exact hLocal.frames
  · change x ∈ params ↔
      ∃ k frame, _ ∧ c₁.scope.frames[k]? = some frame ∧ _
    rw [hFrames]
    exact hHolds x

/- What is known where the body of a function starts. -/
theorem begun_of_headed
    {final : Globals}
    (hOutside : c.scope.current = none)
    (hFormed : c.scope.globals.Formed)
    (hReturn : returnType.Spelled c.scope.globals)
    (hParams : Parameters c params scope)
    (hHead :
      Headed { c with scope := scope } returnType params
        hasBody p c₁)
    (hKept :
      (c₁.enterFunction p params).scope.globals.Extends
        final)
    (body : Stmt)
    (line : Nat) :
    FunctionDef.Begun final c.scope.frames.length
      ⟨{ p with implemented := true, params := params },
        body, line⟩
      (c₁.enterFunction p params) := by
  rcases types_of_headed hFormed hReturn hParams hHead with
    ⟨-, hHeaded, hSpelled, hTypes⟩
  rcases local_of_headed hOutside hParams hHead with
    ⟨hLocal, hHolds⟩
  have hSame :
      c₁.scope.globals.Extends
        (c₁.enterFunction p params).scope.globals :=
    .implement _ p.id params
  exact
    { isLocal := hLocal
      function := rfl
      declared := fun x => (hHolds x).mp
      held := fun x => (hHolds x).mpr
      names := hParams.names
      arguments := hParams.bound
      formed := hHeaded.implement hTypes p.id
      kept := hKept
      params := fun x hMem =>
        ⟨(hTypes x hMem).1.extend hSame.records,
          (hTypes x hMem).2⟩
      returns := hSpelled.extend hSame.records }

end

------------------------------------------------------------
-- Functions of a Program
------------------------------------------------------------

variable {fs : List FunctionDef}

/- Functions and records are kept with their types. -/
theorem Read.globals
    {c c' : Context}
    (hRead : Read c fs c')
    (hFormed : c.scope.globals.Formed) :
    c.scope.globals.Extends c'.scope.globals ∧
      c'.scope.globals.Formed := by
  induction hRead with
  | nil => exact ⟨.refl _, hFormed⟩
  | record hSpelled hSpecified _ hOk _ ih =>
      rcases ih
        (hFormed.declareRecord hSpelled hSpecified hOk) with
        ⟨hExtends, hLast⟩
      exact ⟨(Globals.Extends.declareRecord hOk).1.trans
        hExtends, hLast⟩
  | header hReturn hParams hHead _ ih =>
      rcases types_of_headed hFormed hReturn hParams
        hHead with
        ⟨hFirst, hHeaded, -⟩
      rcases ih hHeaded with ⟨hExtends, hLast⟩
      exact ⟨hFirst.trans hExtends, hLast⟩
  | @function c c₁ c₂ c' _ _ params p _ _ _ _ hReturn
      hParams hHead hBody _ ih =>
      rcases types_of_headed hFormed hReturn hParams
        hHead with
        ⟨hFirst, hHeaded, -, hTypes⟩
      have hInside :
          c₂.scope.globals =
            c₁.scope.globals.implement p.id params :=
        hBody.kept.globals
      have hBehind :
          c₂.leaveFunction.scope.globals.Formed := by
        change c₂.scope.globals.Formed
        rw [hInside]
        exact hHeaded.implement hTypes p.id
      rcases ih hBehind with ⟨hExtends, hLast⟩
      have hSecond :
          c₁.scope.globals.Extends
            c₂.leaveFunction.scope.globals := by
        change c₁.scope.globals.Extends c₂.scope.globals
        rw [hInside]
        exact .implement _ p.id params
      exact ⟨hFirst.trans (hSecond.trans hExtends), hLast⟩

/- Frames are kept, with all that is declared in them. -/
theorem Read.keptIn
    {c c' : Context}
    (hRead : Read c fs c') :
    c.scope.KeptIn c'.scope := by
  induction hRead with
  | nil => exact .of_frames rfl
  | record _ _ _ _ _ ih => exact ih
  | header _ hParams hHead _ ih =>
      have hExtends :=
        hParams.declared.extends.trans hHead.extends
      exact (Scope.Extends.block hExtends).keptIn.trans ih
  | @function _ c₁ _ _ _ _ params p _ _ _ _ _ hParams hHead
      hBody _ ih =>
        have hStart :=
          hHead.extends.trans
            (extends_enterFunction c₁ p params)
        have hExtends :=
          hParams.declared.extends.trans
            (hStart.trans hBody.extends)
        exact (Scope.Extends.block hExtends).keptIn.trans ih

/-
  Each function is read off its body, from where that
  starts, and the frames of the body are kept to the end.
-/
theorem Read.begunIn
    (hRead : Read c fs c')
    (hOutside : c.scope.current = none)
    (hFormed : c.scope.globals.Formed) :
    ∀ f ∈ fs, ∃ base c₁ sts start c₂,
      f.Begun c'.scope.globals base c₁ ∧
        f.body = .ofList sts start ∧
          Stmt.ReadAll c₁ sts c₂ ∧
        c₂.scope.KeptIn c'.scope := by
  induction hRead with
  | nil => simp
  | record hSpelled hSpecified _ hOk _ ih =>
      exact ih hOutside
        (hFormed.declareRecord hSpelled hSpecified hOk)
  | header hReturn hParams hHead _ ih =>
      refine ih (leave_of_extends hOutside
        (hParams.declared.extends.trans hHead.extends)) ?_
      exact (types_of_headed hFormed hReturn hParams
        hHead).2.1
  | @function c c₁ c₂ c' _ _ params p sts start _ _ hReturn
      hParams hHead hBody hRest ih =>
      have hStart :=
        hHead.extends.trans
          (extends_enterFunction c₁ p params)
      have hTypes :=
        types_of_headed hFormed hReturn hParams hHead
      have hInside :
          c₂.leaveFunction.scope.globals =
            (c₁.enterFunction p params).scope.globals :=
        hBody.kept.globals
      have hBehind :
          c₂.leaveFunction.scope.globals.Formed := by
        rw [hInside]
        exact hTypes.2.1.implement hTypes.2.2.2 p.id
      have hKept := (hRest.globals hBehind).1
      rw [hInside] at hKept
      refine List.forall_mem_cons.mpr ⟨?_, ?_⟩
      · have hFrames :
            c₂.scope.KeptIn c₂.leaveFunction.scope :=
          .of_frames rfl
        exact ⟨_, _, sts, start, c₂,
          begun_of_headed hOutside hFormed hReturn hParams
            hHead hKept _ _, rfl, hBody,
              hFrames.trans hRest.keptIn⟩
      · refine ih (leave_of_extends hOutside ?_) hBehind
        exact hParams.declared.extends.trans
          (hStart.trans hBody.extends)

theorem Read.begun
    (hRead : Read c fs c')
    (hOutside : c.scope.current = none)
    (hFormed : c.scope.globals.Formed) :
    ∀ f ∈ fs, ∃ base c₁ sts start c₂,
      f.Begun c'.scope.globals base c₁ ∧
        f.body = .ofList sts start ∧
          Stmt.ReadAll c₁ sts c₂ := by
  intro f hMem
  rcases hRead.begunIn hOutside hFormed f hMem with
    ⟨base, c₁, sts, start, c₂, hBegun, hBody, hAll, -⟩
  exact ⟨base, c₁, sts, start, c₂, hBegun, hBody, hAll⟩

theorem begun_of_parse
    {text : String}
    {p : Program}
    (hParse : Program.parse text = .ok p) :
    ∀ f ∈ p.functions, ∃ base c₁ sts start c₂,
      f.Begun p.globals base c₁ ∧
        f.body = .ofList sts start ∧
          Stmt.ReadAll c₁ sts c₂ := by
  rcases read_of_parse hParse with ⟨c, hRead, hGlobals⟩
  rw [hGlobals]
  exact hRead.begun rfl .empty

end Program

namespace FunctionDef

variable {text : String} {p : Program} {f : FunctionDef}

/- All variables are in frames of the function. -/
theorem Begun.holds
    {final : Globals}
    {base : Nat}
    {c₁ c₂ : Context}
    {sts : List Stmt}
    {start : Nat}
    (hBegun : f.Begun final base c₁)
    (hBody : f.body = .ofList sts start)
    (hAll : Stmt.ReadAll c₁ sts c₂) :
    ∀ x ∈ f.signature.params ++ f.body.variables,
      c₂.scope.Holds base x := by
  rw [hBody, Stmt.variables_ofList]
  exact List.forall_mem_append.mpr
    ⟨fun x hMem =>
      hAll.extends.holds (hBegun.declared x hMem),
      hAll.holds hBegun.inside⟩

/- No two variables of a function share a slot. -/
theorem eq_of_storage
    {x y : Identifier}
    (hParse : Program.parse text = .ok p)
    (hFunction : f ∈ p.functions)
    (hFirst : x ∈ f.signature.params ++ f.body.variables)
    (hSecond : y ∈ f.signature.params ++ f.body.variables)
    (hEq : x.storage = y.storage) :
    x = y := by
  rcases Program.begun_of_parse hParse f hFunction with
    ⟨base, c₁, sts, start, c₂, hBegun, hBody, hAll⟩
  have hHolds := hBegun.holds hBody hAll
  exact (hAll.inside hBegun.inside).scope.eq_of_storage
    (hHolds x hFirst) (hHolds y hSecond) hEq

/- Parameters are declared when the body starts. -/
def opened (f : FunctionDef) : Declarations :=
  ⟨f.signature.params, f.signature.params⟩

/- Variables that may not have been declared. -/
def strays (f : FunctionDef) : List Identifier :=
  f.body.strays f.opened

/- Variables that a body declares without a block. -/
def bare (f : FunctionDef) : List Identifier :=
  f.body.bare f.opened

/- Only variables that are declared bare can stray. -/
theorem bare_of_strays
    {x : Identifier}
    (hParse : Program.parse text = .ok p)
    (hFunction : f ∈ p.functions)
    (hStrays : x ∈ f.strays) :
    x ∈ f.bare := by
  rcases Program.begun_of_parse hParse f hFunction with
    ⟨base, c₁, sts, start, c₂, hBegun, hBody, hAll⟩
  have hCovers : f.opened.Covers base [] c₁.scope :=
    ⟨fun x hSight =>
      .inl
        (hBegun.held x
          (hBegun.isLocal.holds_of_inSight hSight)),
      hBegun.declared⟩
  have hStray :=
    (hAll.covered hBegun.inside hCovers).stray x
  rw [List.nil_append] at hStray
  unfold strays at hStrays
  unfold bare
  rw [hBody] at hStrays ⊢
  cases sts with
  | nil => cases hStrays
  | cons head tail =>
      rw [Stmt.ofList, Stmt.strays] at hStrays
      rw [Stmt.ofList, Stmt.bare]
      exact hStray hStrays

end FunctionDef

end Bracketry
