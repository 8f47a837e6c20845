import Bracketry.Proofs.Program.Reading
import Bracketry.Proofs.Stmt.Acceptance

/-
  This file shows that a program which is read can be
  written as code, if all its functions have bodies and the
  types of its variables are complete.
-/

namespace Bracketry

/- What holds of every function that is read. -/
def FunctionDef.Accepted (f : FunctionDef) : Prop :=
  f.body.Accepted 0

theorem Scope.Sound.declares
    {s s' : Scope}
    {xs : List Identifier}
    (hSound : s.Sound)
    (hMembers : ∀ x ∈ xs, x.ty.MembersSpecified)
    (hDeclares : s.Declares xs s') :
    s'.Sound := by
  induction hDeclares with
  | nil => exact hSound
  | cons hFirst _ ih =>
      rcases List.forall_mem_cons.mp hMembers with
        ⟨hOne, hOthers⟩
      exact ih (hSound.declare hOne hFirst) hOthers

namespace Program

variable {params : List Identifier} {c c' : Context}
variable {p : Prototype}

theorem Parameters.sound
    {scope : Scope}
    (hParams : Parameters c params scope)
    (hSound : c.scope.Sound) :
    scope.Sound := by
  apply hSound.enter.declares ?_ hParams.declared
  exact fun x hMem =>
    (hParams.spelled x hMem).membersSpecified hSound.records

/- A header changes functions only. -/
theorem Headed.kept
    {returnType : Ty}
    {hasBody : Bool}
    (hHead : Headed c returnType params hasBody p c') :
    c'.scope.globals.records = c.scope.globals.records ∧
      c'.scope.frames = c.scope.frames ∧
      c'.scope.current = c.scope.current ∧
      c'.loopDepth = c.loopDepth ∧
        c'.function = c.function := by
  cases hHead with
  | known _ _ _ => exact ⟨rfl, rfl, rfl, rfl, rfl⟩
  | new hOk =>
      rw [Globals.declarePrototype_eq] at hOk
      split at hOk
      · cases hOk
      · cases hOk
        exact ⟨rfl, rfl, rfl, rfl, rfl⟩

theorem Headed.sound
    {returnType : Ty}
    {hasBody : Bool}
    (hHead : Headed c returnType params hasBody p c')
    (hSound : c.scope.Sound) :
    c'.scope.Sound := by
  rcases hHead.kept with ⟨hRecords, hFrames, -⟩
  refine ⟨?_, ?_⟩
  · rw [hRecords]
    exact hSound.records
  · rw [hFrames]
    exact hSound.declared

theorem sound_enterFunction
    (hSound : c.scope.Sound)
    (p : Prototype)
    (params : List Identifier) :
    (c.enterFunction p params).scope.Sound :=
  hSound.of_records rfl

/- All functions that are read are accepted. -/
theorem Read.accepted
    {fs : List FunctionDef}
    (hRead : Read c fs c')
    (hSound : c.scope.Sound)
    (hOutside : c.loopDepth = 0) :
    ∀ f ∈ fs, f.Accepted := by
  induction hRead with
  | nil => simp
  | @record c _ fields _ _ _ _ _ hSpelled hSpecified _
      hOk _ ih =>
        have hMembers :
            Ty.AllSpecified
              (fields.map fun field =>
                (field.name, field.ty)) := by
          rw [Ty.allSpecified_iff, List.forall_mem_map]
          exact fun field hMem => ⟨hSpecified field hMem,
            (hSpelled field hMem).membersSpecified
              hSound.records⟩
        exact ih (hSound.declareRecord hMembers hOk)
          hOutside
  | header _ hParams hHead _ ih =>
      have hHeaded := hHead.sound (hParams.sound hSound)
      exact ih hHeaded.leave
        (hHead.kept.2.2.2.1.trans hOutside)
  | @function _ c₁ _ _ _ _ params p _ _ _ _ _ hParams hHead
      hBody _ ih =>
        have hHeaded := hHead.sound (hParams.sound hSound)
        have hStart := sound_enterFunction hHeaded p params
        have hDepth :
            (c₁.enterFunction p params).loopDepth = 0 :=
          hHead.kept.2.2.2.1.trans hOutside
        have hInside := hBody.accepted hStart
        refine List.forall_mem_cons.mpr ⟨?_, ?_⟩
        · rw [hDepth] at hInside
          exact Stmt.ofList_accepted hInside _
        · exact ih
            (hBody.carried Stmt.sound_carried hStart).leave
            (hBody.kept.loopDepth.trans hDepth)

end Program

namespace FunctionDef

open Build (progress)

/- A function has no loop around it. -/
theorem lower_succeeds
    {f : FunctionDef}
    (hTyped : f.body.WellTyped)
    (hBreaks : f.body.breaksEnclosed = true) :
    progress.Keeps [] f.lower := by
  have hStart : progress.Keeps []
      (modify fun b =>
        { b with
          lines := #[], allocated := [],
          between := false }) :=
    Build.SucceedsIn.modify fun _ => rfl
  have hParams : ∀ exits, progress.Keeps exits
      (lowerParameters f.signature.params) := fun exits =>
    lowerParameters_follows
      (fun _ _ => Build.progress_covers.slot trivial)
      fun _ _ _ _ _ _ => trivial
  refine progress.bind hStart fun _ exits hSame _ => ?_
  refine progress.bind (hParams exits) fun _ exits' _ _ =>
    ?_
  exact lowerBody_follows
    (Stmt.lower_within Build.progress_coversAll
      f.body hTyped)
    (lowerEnd_follows (fun _ _ => trivial) fun _ _ =>
      trivial) exits'
    (.inr hBreaks)

theorem lowerAll_succeeds
    {fs : List FunctionDef}
    (hTyped : ∀ f ∈ fs, f.body.WellTyped)
    (hBreaks : ∀ f ∈ fs, f.body.breaksEnclosed = true) :
    progress.Keeps [] (lowerAll fs) := by
  induction fs with
  | nil => exact progress.pure fun _ _ => trivial
  | cons f rest ih =>
      rcases List.forall_mem_cons.mp hTyped with
        ⟨hFirst, hRest⟩
      rcases List.forall_mem_cons.mp hBreaks with
        ⟨hFirst', hRest'⟩
      refine progress.bind (lower_succeeds hFirst hFirst')
        ?_
      rintro definition _ rfl _
      refine progress.bind (ih hRest hRest')
        fun definitions _ _ _ => ?_
      exact progress.pure fun _ _ => trivial

end FunctionDef

namespace Program

/- All functions of a program that is read are accepted. -/
theorem accepted_of_parse
    {text : String}
    {p : Program}
    (hParse : Program.parse text = .ok p) :
    ∀ f ∈ p.functions, f.Accepted := by
  rcases read_of_parse hParse with ⟨c, hRead, -⟩
  exact hRead.accepted .empty rfl

/-
  What is read can be written.  The types of parameters and
  of members are always complete, and those of returned
  values do not matter.
-/
theorem exists_lower_of_parse
    {text : String}
    {p : Program}
    (hParse : Program.parse text = .ok p)
    (hImplemented :
      ∀ prototype ∈ p.globals.prototypes,
        prototype.implemented = true)
    (hSpecified :
      ∀ f ∈ p.functions, ∀ x ∈ f.body.variables,
        x.ty.IsFullySpecified) :
    ∃ listing, p.lower = .ok listing := by
  have hAccepted : ∀ f ∈ p.functions, f.Accepted :=
    accepted_of_parse hParse
  have hTyped : ∀ f ∈ p.functions, f.body.WellTyped :=
    fun f hMem =>
      (hAccepted f hMem).typed (hSpecified f hMem)
  have hBreaks : ∀ f ∈ p.functions, f.body.breaksEnclosed =
    true :=
    fun f hMem => (hAccepted f hMem).breaks rfl
  rcases FunctionDef.lowerAll_succeeds hTyped hBreaks
    Builder.empty rfl with ⟨definitions, b, hOk, -⟩
  have hNone : p.unimplemented? = none := by
    unfold unimplemented?
    simpa using hImplemented
  unfold lower
  rw [hNone, hOk]
  exact ⟨_, rfl⟩

/- A literal is stored in a member, and a loop is left. -/
def weighing : String :=
  "[struct P: float[2] a] [int main] \x7b P p; p[a] = [1, 2.5];
while p[a][1] > 0 && true \x7b break; \x7d return p[a][0]; \x7d"

theorem weighing_lowers :
    ∃ p, Program.parse weighing = .ok p ∧
      (∀ prototype ∈ p.globals.prototypes,
        prototype.implemented = true) ∧
      (∀ f ∈ p.functions, ∀ x ∈ f.body.variables,
        x.ty.IsFullySpecified) ∧
      (∃ f ∈ p.functions, f.body.variables ≠ []) ∧
      ∃ listing, p.lower = .ok listing := by
  have hChecked :
      (match Program.parse weighing with
        | .error _ => false
        | .ok p =>
            p.globals.prototypes.all (·.implemented) &&
              p.functions.all (fun f =>
                f.body.variables.all
                  (decide ·.ty.IsFullySpecified)) &&
              p.functions.any
                (decide <| ·.body.variables ≠ [])) =
        true := by
    decide +kernel
  cases hParse : Program.parse weighing with
  | error fault =>
      rw [hParse] at hChecked
      cases hChecked
  | ok p =>
      rw [hParse] at hChecked
      simp only [Bool.and_eq_true, List.all_eq_true,
        List.any_eq_true, decide_eq_true_eq] at hChecked
      rcases hChecked with
        ⟨⟨hImplemented, hSpecified⟩, hSome⟩
      exact ⟨p, rfl, hImplemented, hSpecified, hSome,
        exists_lower_of_parse hParse hImplemented
          hSpecified⟩

end Program

end Bracketry
