import Bracketry.Proofs.Expr.Acceptance
import Bracketry.Proofs.Expr.Progress
import Bracketry.Proofs.Stmt.Reading

/-
  This file shows that every statement which is read can be
  written as code: its breaks stand in loops, and it is well
  typed as soon as the types of its variables are complete.

  An array declared without a length takes the length of its
  initializer, which is none for an empty string.  Values
  assigned later are then compared with an incomplete type.
-/

namespace Bracketry

variable {t declared : Ty}

namespace Stmt

/- What holds of statements read in so many loops. -/
structure Accepted
    (depth : Nat)
    (st : Stmt) : Prop where
  breaks : depth = 0 → st.breaksEnclosed = true
  typed :
    (∀ x ∈ st.variables, x.ty.IsFullySpecified) →
      st.WellTyped

end Stmt

/- Completing a type changes lengths only. -/
theorem Ty.membersSpecified_of_inferFrom
    {declared literal t : Ty}
    (hMembers : declared.MembersSpecified)
    (hInfer : declared.inferFrom literal = some t) :
    t.MembersSpecified := by
  fun_induction Ty.inferFrom declared
    literal generalizing t with
  | case1 m declared n literal hLength ih =>
      rcases Option.map_eq_some_iff.mp hInfer with
        ⟨u, hInner, rfl⟩
      rw [Ty.MembersSpecified] at hMembers ⊢
      exact ih hMembers hInner
  | case5 declared literal _ _ _ hConverts =>
      cases hInfer
      exact hMembers
  | _ => cases hInfer

/- A place declared for a value keeps its members. -/
theorem Expr.membersSpecified_of_agree
    {value : Expr}
    (hMembers : declared.MembersSpecified)
    (hAgree : value.agree declared = .ok t) :
    t.MembersSpecified := by
  rcases agree_eq_ok hAgree with ⟨hInfer, -⟩ | ⟨-, rfl⟩
  · exact Ty.membersSpecified_of_inferFrom hMembers hInfer
  · exact hMembers

/- The initial value of a type fits it. -/
theorem Expr.fits_of_initial
    {line : Nat}
    {e : Expr}
    (hOk : initial t line = .ok e) :
    e.WellTyped ∧ e.Fits t := by
  cases t with
  | primitive kind =>
      cases kind with
      | void => cases hOk
      | char =>
          cases hOk
          refine ⟨?_, Ty.convertsTo_self _⟩
          exact .inr ⟨rfl, by decide, by decide⟩
      | int =>
          cases hOk
          refine ⟨?_, Ty.convertsTo_self _⟩
          exact .inl ⟨rfl, by decide, by decide⟩
      | _ =>
          cases hOk
          exact ⟨trivial, Ty.convertsTo_self _⟩
  | _ =>
      cases hOk
      exact ⟨trivial, Ty.convertsTo_self _⟩

/- Functions, records, loops and function are kept. -/
structure Context.Kept (c c' : Context) : Prop where
  globals : c'.scope.globals = c.scope.globals
  loopDepth : c'.loopDepth = c.loopDepth
  function : c'.function = c.function

theorem Context.Kept.carried :
    Context.Carried Context.Kept where
  refl := fun _ => ⟨rfl, rfl, rfl⟩
  trans := fun h₁ h₂ => ⟨h₂.globals.trans h₁.globals,
    h₂.loopDepth.trans h₁.loopDepth, h₂.function.trans
      h₁.function⟩
  declare := fun _ _ _ hDeclare =>
    ⟨Scope.globals_of_declare hDeclare, rfl, rfl⟩
  block := fun h => ⟨h.globals, h.loopDepth, h.function⟩
  loop := fun h =>
    ⟨h.globals, congrArg (· - 1) h.loopDepth, h.function⟩

namespace Stmt

variable {c c' : Context} {sts : List Stmt} {σ : Scope}

theorem Read.kept
    {st : Stmt}
    (hRead : st.Read c c') :
    c.Kept c' :=
  hRead.carried Context.Kept.carried

theorem ReadAll.kept
    (hAll : ReadAll c sts c') :
    c.Kept c' :=
  hAll.carried Context.Kept.carried

variable {value : Expr} {depth : Nat}

/- A variable is declared with complete members. -/
theorem Initial.membersSpecified
    {σ : Scope}
    {declared t : Ty}
    (hSound : σ.Sound)
    (hDeclared : declared.Spelled σ.globals)
    (hInitial : Initial σ declared t value) :
    t.MembersSpecified := by
  have hMembers := hDeclared.membersSpecified hSound.records
  cases hInitial with
  | given _ hAgree =>
      exact Expr.membersSpecified_of_agree hMembers hAgree
  | default _ _ => exact hMembers

/- A variable is declared with a value that fits it. -/
theorem Initial.fits
    (hInitial : Initial σ declared t value) :
    value.WellTyped ∧ value.Fits t := by
  cases hInitial with
  | given hValue hAgree =>
      have hAccepted := hValue.accepted
      exact ⟨hAccepted.typed,
        Expr.fits_of_agree hAccepted.typed hAccepted.written
          hAgree⟩
  | default _ hOk => exact Expr.fits_of_initial hOk

/- The records and variables that are known stay sound. -/
theorem sound_carried :
    Context.Carried fun c c' => c.scope.Sound →
      c'.scope.Sound where
  refl := fun _ => id
  trans := fun h₁ h₂ hSound => h₂ (h₁ hSound)
  declare := fun hDeclared hInitial _ hDeclare hSound =>
    hSound.declare
      (hInitial.membersSpecified hSound hDeclared) hDeclare
  block := fun h hSound => (h hSound.enter).leave
  loop := id

/-
  A value that agrees with the type of a place fits it, if
  the type is complete.  It is, if that of the variable is.
-/
theorem assign_accepted
    {target : Place}
    (hSound : σ.Sound)
    (hTarget : target.Read σ)
    (hValue : value.Read σ)
    (hAgree : value.agree target.ty = .ok t)
    (line : Nat) :
    Accepted depth (.assign target value line) := by
  refine ⟨fun _ => rfl, fun hSpecified => ?_⟩
  have hRoot : target.root.ty.IsFullySpecified :=
    hSpecified _
      (List.mem_append_left _ target.root_mem_variables)
  rcases hTarget.lookup_root with ⟨name, hLookup⟩
  have hPlace : target.ty.IsFullySpecified :=
    (target.isFullySpecified hTarget.wellTyped hRoot
      (hSound.lookup hLookup)).1
  have hAccepted := hValue.accepted
  refine ⟨hTarget.wellTyped, hAccepted.typed, ?_⟩
  have hFits :=
    Expr.fits_of_agree hAccepted.typed hAccepted.written
      hAgree
  rw [Expr.agree_eq_self hPlace hAgree] at hFits
  exact hFits

/- What holds of each holds of all together. -/
theorem all_accepted
    (hAll : ∀ st ∈ sts, Accepted depth st) :
    (depth = 0 → allEnclosed sts = true) ∧
      ((∀ x ∈ allVariables sts, x.ty.IsFullySpecified) →
        AllWellTyped sts) := by
  induction sts with
  | nil => exact ⟨fun _ => rfl, fun _ => trivial⟩
  | cons st rest ih =>
      rcases List.forall_mem_cons.mp hAll with
        ⟨hFirst, hOthers⟩
      rcases ih hOthers with ⟨hBreaks, hTyped⟩
      constructor
      · intro hOutside
        rw [allEnclosed, hFirst.breaks hOutside,
          hBreaks hOutside]
        rfl
      · intro hSpecified
        rw [allVariables, List.forall_mem_append]
          at hSpecified
        exact ⟨hFirst.typed hSpecified.1,
          hTyped hSpecified.2⟩

/- Statements in order are accepted if all of them are. -/
theorem ofList_accepted
    (hAll : ∀ st ∈ sts, Accepted depth st)
    (line : Nat) :
    Accepted depth (.ofList sts line) := by
  cases sts with
  | nil =>
      refine ⟨fun _ => rfl, fun _ => ?_⟩
      rw [ofList, WellTyped]
      trivial
  | cons head tail =>
      rcases all_accepted hAll with ⟨hBreaks, hTyped⟩
      constructor
      · intro hOutside
        rw [ofList, breaksEnclosed]
        exact hBreaks hOutside
      · intro hSpecified
        rw [ofList, Stmt.variables] at hSpecified
        rw [ofList, WellTyped]
        exact hTyped hSpecified

mutual

/- Every statement that is read is accepted. -/
theorem Read.accepted :
    ∀ {c : Context} {st : Stmt} {c' : Context},
      st.Read c c' → c.scope.Sound → st.Accepted c.loopDepth
| _, _, _, .declaration _ _ hInitial _ _, _ => by
    refine ⟨fun _ => rfl, fun _ => ?_⟩
    rw [WellTyped, Place.WellTyped, Place.ty]
    exact ⟨trivial, hInitial.fits⟩
| _, _, _, .assignment hTarget hValue hAgree, hSound =>
    assign_accepted hSound hTarget hValue hAgree _
| _, _, _, .evaluation hCall _, _ => by
    refine ⟨fun _ => rfl, fun _ => ?_⟩
    exact hCall.accepted.typed
| _, _, _, .returnNothing _ _, _ => by
    refine ⟨fun _ => rfl, fun _ => ?_⟩
    trivial
| _, _, _, .returnValue _ _ hValue hConverts, _ => by
    refine ⟨fun _ => rfl, fun _ => ?_⟩
    exact ⟨hValue.accepted.typed, hConverts⟩
| _, _, _, .breakLoop hInside, _ => by
    refine ⟨fun hOutside => absurd hOutside hInside,
      fun _ => ?_⟩
    trivial
| _, _, _, .empty, _ => by
    refine ⟨fun _ => rfl, fun _ => ?_⟩
    trivial
| _, _, _, .block hAll, hSound =>
    ofList_accepted (hAll.accepted hSound.enter) _
| _, _, _, .ifThen hCondition hIsCondition hBody,
    hSound => by
    have hInside := hBody.accepted hSound
    refine ⟨fun hOutside => ?_, fun hSpecified => ?_⟩
    · rw [breaksEnclosed]
      exact hInside.breaks hOutside
    · rw [Stmt.variables, List.forall_mem_append]
        at hSpecified
      exact ⟨hCondition.accepted.typed,
        (Expr.isCondition_iff _).mp hIsCondition,
        hInside.typed hSpecified.2⟩
| _, _, _, .ifElse hCondition hIsCondition hBody hOther,
    hSound => by
    have hFirst := hBody.accepted hSound
    have hSecond :=
      hOther.accepted (hBody.carried sound_carried hSound)
    rw [hBody.kept.loopDepth] at hSecond
    refine ⟨fun hOutside => ?_, fun hSpecified => ?_⟩
    · rw [breaksEnclosed, hFirst.breaks hOutside,
        hSecond.breaks hOutside]
      rfl
    · rw [Stmt.variables, List.forall_mem_append,
        List.forall_mem_append] at hSpecified
      exact ⟨hCondition.accepted.typed,
        (Expr.isCondition_iff _).mp hIsCondition,
        hFirst.typed hSpecified.1.2,
          hSecond.typed hSpecified.2⟩
| c, _, _, .whileLoop hCondition hIsCondition hBody,
    hSound => by
    have hInside : Accepted (c.loopDepth + 1) _ :=
      hBody.accepted (c := c.enterLoop) hSound
    refine ⟨fun _ => rfl, fun hSpecified => ?_⟩
    rw [Stmt.variables, List.forall_mem_append]
      at hSpecified
    exact ⟨hCondition.accepted.typed,
      (Expr.isCondition_iff _).mp hIsCondition,
      hInside.typed hSpecified.2⟩
| c, _, _, .doWhile hBody hCondition hIsCondition,
    hSound => by
    have hInside : Accepted (c.loopDepth + 1) _ :=
      hBody.accepted (c := c.enterLoop) hSound
    refine ⟨fun _ => rfl, fun hSpecified => ?_⟩
    rw [Stmt.variables, List.forall_mem_append]
      at hSpecified
    exact ⟨hCondition.accepted.typed,
      (Expr.isCondition_iff _).mp hIsCondition,
      hInside.typed hSpecified.1⟩

theorem ReadAll.accepted :
    ∀ {c : Context} {sts : List Stmt} {c' : Context},
      ReadAll c sts c' → c.scope.Sound →
      ∀ st ∈ sts, st.Accepted c.loopDepth
| _, _, _, .nil, _ => by simp
| _, _, _, .cons hFirst hRest, hSound => by
    have hOthers :=
      hRest.accepted (hFirst.carried sound_carried hSound)
    rw [hFirst.kept.loopDepth] at hOthers
    exact List.forall_mem_cons.mpr
      ⟨hFirst.accepted hSound, hOthers⟩

end

end Stmt

end Bracketry
