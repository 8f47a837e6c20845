import Bracketry.Proofs.Expr.Typing
import Bracketry.Scope

/-
  This file shows that members of records have complete
  types wherever a program can name them.

  A record is declared with complete members only, and a
  type can be made only of the records declared.  So all
  types that are known have complete members, at any depth,
  and a part of a variable has a complete type if the
  variable has.

  A name that is refused leaves all as it was.
-/

namespace Bracketry

theorem Globals.declarePrototype_eq
    (g : Globals)
    (name : Identifier)
    (params : List Identifier)
    (line : Nat) :
    g.declarePrototype name params line =
      match g.prototype? name.name with
      | some _ => .error ⟨.redeclared name.name, line⟩
      | none =>
          let p : Prototype :=
            ⟨g.prototypes.length, name, params, false, line⟩
          .ok
            (p, { g with
              prototypes := g.prototypes ++ [p] }) := by
  rw [declarePrototype, addPrototype]
  cases g.prototype? name.name <;> rfl

theorem Globals.declareRecord_eq
    (g : Globals)
    (name : String)
    (members : List (String × Ty))
    (line : Nat) :
    g.declareRecord name members line =
      match g.record? name with
      | some _ => .error ⟨.redeclared name, line⟩
      | none =>
          let r : Record :=
            ⟨g.records.length, name, members, line⟩
          .ok
            (r,
              { g with records := g.records ++ [r] }) := by
  rw [declareRecord, addRecord]
  cases g.record? name <;> rfl

theorem Scope.declare_eq
    (s : Scope)
    (x : Identifier) :
    s.declare x =
      match s.current with
      | none =>
          .error (.ofTypes (.outsideFunction x.name) x.line)
      | some id =>
          match s.frames[id]?.bind (·.find? x.name) with
          | some _ => .error ⟨.redeclared x.name, x.line⟩
          | none =>
              .ok { s with
                frames := s.frames.modify id fun frame =>
                  { frame with
                    declared :=
                      x :: frame.declared } } := by
  rcases s with ⟨frames, _ | id, globals⟩
  · rfl
  · rw [declare, addVariable]
    dsimp only
    cases frames[id]?.bind (·.find? x.name) <;> rfl

/-
  A step that is refused leaves the state as it was.  The
  fault is on a given line and not about a break.
-/
def Refuses
    {σ α : Type}
    (line : Nat)
    (step : EStateM Fault σ α) : Prop :=
  ∀ s fault s', step s = .error fault s' →
    s' = s ∧ fault.line = line ∧
      fault.cause ≠ .misplacedBreak

theorem Globals.addPrototype_refuses
    (name : Identifier)
    (params : List Identifier)
    (line : Nat) :
    Refuses line (addPrototype name params line) := by
  intro g fault g' hError
  unfold addPrototype at hError
  split at hError <;> cases hError
  exact ⟨rfl, rfl, Cause.noConfusion⟩

theorem Globals.addRecord_refuses
    (name : String)
    (members : List (String × Ty))
    (line : Nat) :
    Refuses line (addRecord name members line) := by
  intro g fault g' hError
  unfold addRecord at hError
  split at hError <;> cases hError
  exact ⟨rfl, rfl, Cause.noConfusion⟩

theorem Scope.addVariable_refuses
    (x : Identifier) :
    Refuses x.line (addVariable x) := by
  intro s fault s' hError
  unfold addVariable at hError
  repeat' split at hError
  all_goals cases hError
  all_goals exact ⟨rfl, rfl, Cause.noConfusion⟩

namespace Scope

variable {α : Type} {step : EStateM Fault Globals α}

theorem onGlobals_refuses
    {line : Nat}
    (hRefuses : Refuses line step) :
    Refuses line (onGlobals step) := by
  intro s fault s' hError
  unfold onGlobals at hError
  split at hError
  · cases hError
  · rename_i hStep
    cases hError
    rcases hRefuses _ _ _ hStep with ⟨rfl, hFault⟩
    exact ⟨rfl, hFault⟩

theorem onGlobals_eq_ok
    {s s' : Scope}
    {a : α}
    (hOk : onGlobals step s = .ok a s') :
    ∃ globals, accepted (step s.globals) =
      .ok (a, globals) ∧
        s' = { s with globals := globals } := by
  unfold onGlobals at hOk
  split at hOk
  · rename_i globals hStep
    cases hOk
    exact ⟨globals, congrArg accepted hStep, rfl⟩
  · cases hOk

theorem declare_of_addVariable
    {s s' : Scope}
    {x : Identifier}
    (hOk : addVariable x s = .ok () s') :
    s.declare x = .ok s' := by
  rw [declare, hOk]
  rfl

end Scope

------------------------------------------------------------
-- Complete Members
------------------------------------------------------------

mutual

/- All members of a type have complete types. -/
def Ty.MembersSpecified : Ty → Prop
| .array _ t => t.MembersSpecified
| .record _ _ members => Ty.AllSpecified members
| _ => True

/- The types of members are complete at all depths. -/
def Ty.AllSpecified : List (String × Ty) → Prop
| [] => True
| (_, t) :: rest =>
    (t.IsFullySpecified ∧ t.MembersSpecified) ∧
      Ty.AllSpecified rest

end

theorem Ty.allSpecified_iff
    {members : List (String × Ty)} :
    Ty.AllSpecified members ↔
      ∀ m ∈ members, m.2.IsFullySpecified ∧
        m.2.MembersSpecified := by
  induction members with
  | nil => simp [Ty.AllSpecified]
  | cons m rest ih =>
      rw [Ty.AllSpecified, List.forall_mem_cons, ih]

/- A part of a complete type has a complete type. -/
theorem Place.isFullySpecified
    (place : Place)
    (hTyped : place.WellTyped)
    (hRoot : place.root.ty.IsFullySpecified)
    (hMembers : place.root.ty.MembersSpecified) :
    place.ty.IsFullySpecified ∧
      place.ty.MembersSpecified := by
  cases place with
  | var x => exact ⟨hRoot, hMembers⟩
  | element parent index t =>
      rw [Place.WellTyped] at hTyped
      rcases hTyped with ⟨hParent, -, -, n, hArray⟩
      have hWhole :=
        Place.isFullySpecified parent hParent hRoot hMembers
      rw [hArray, Ty.IsFullySpecified, Ty.MembersSpecified]
        at hWhole
      exact ⟨hWhole.1.2, hWhole.2⟩
  | member parent position name t =>
      rw [Place.WellTyped] at hTyped
      rcases hTyped with
        ⟨hParent, serial, record, members, hRecord, hMember⟩
      have hWhole :=
        Place.isFullySpecified parent hParent hRoot hMembers
      rw [hRecord, Ty.MembersSpecified, Ty.allSpecified_iff]
        at hWhole
      exact hWhole.2 (name, t)
        (List.mem_of_getElem? hMember)

namespace Scope

/- All that is known has complete members. -/
structure Sound (s : Scope) : Prop where
  records : ∀ r ∈ s.globals.records, r.ty.MembersSpecified
  declared :
    ∀ frame ∈ s.frames, ∀ x ∈ frame.declared,
      x.ty.MembersSpecified

namespace Sound

variable {s : Scope}

theorem empty :
    Sound .empty where
  records := by simp [Scope.empty, Globals.empty]
  declared := by simp [Scope.empty]

theorem enter
    (hSound : s.Sound) :
    s.enter.2.Sound where
  records := hSound.records
  declared := by
    intro frame hFrame x hMem
    rcases List.mem_append.mp hFrame with hOld | hNew
    · exact hSound.declared frame hOld x hMem
    · rw [List.mem_singleton.mp hNew] at hMem
      cases hMem

theorem leave
    (hSound : s.Sound) :
    s.leave.Sound where
  records := hSound.records
  declared := hSound.declared

/- Declaring a variable with complete members. -/
theorem declare
    {s' : Scope}
    {x : Identifier}
    (hSound : s.Sound)
    (hMembers : x.ty.MembersSpecified)
    (hOk : s.declare x = .ok s') :
    s'.Sound := by
  rw [Scope.declare_eq] at hOk
  split at hOk
  · cases hOk
  · rename_i id _
    split at hOk
    · cases hOk
    · cases hOk
      refine ⟨hSound.records, ?_⟩
      intro frame hFrame y hMem
      -- only the current frame is changed, by one variable
      rcases List.mem_iff_getElem?.mp hFrame with ⟨i, hAt⟩
      rw [List.getElem?_modify] at hAt
      rcases Option.map_eq_some_iff.mp hAt with
        ⟨old, hOld, hEq⟩
      have hBefore :=
        hSound.declared old (List.mem_of_getElem? hOld)
      split at hEq
      · rw [← hEq] at hMem
        rcases List.mem_cons.mp hMem with rfl | hTail
        · exact hMembers
        · exact hBefore y hTail
      · rw [← hEq] at hMem
        exact hBefore y hMem

/- Declaring a record with complete members. -/
theorem declareRecord
    {name : String}
    {members : List (String × Ty)}
    {line : Nat}
    {r : Record}
    {globals : Globals}
    (hSound : s.Sound)
    (hMembers : Ty.AllSpecified members)
    (hOk :
      s.globals.declareRecord name members line =
        .ok (r, globals)) :
    Sound { s with globals := globals } := by
  rw [Globals.declareRecord_eq] at hOk
  split at hOk
  · cases hOk
  · cases hOk
    refine ⟨?_, hSound.declared⟩
    intro r hRecord
    rcases List.mem_append.mp hRecord with hOld | hNew
    · exact hSound.records r hOld
    · rw [List.mem_singleton.mp hNew, Record.ty,
        Ty.MembersSpecified]
      exact hMembers

/- Functions do not matter. -/
theorem of_records
    {globals : Globals}
    (hSound : s.Sound)
    (hRecords : globals.records = s.globals.records) :
    Sound { s with globals := globals } where
  records := by
    rw [hRecords]
    exact hSound.records
  declared := hSound.declared

end Sound

/- Frames that are open have been opened. -/
theorem mem_of_mem_outward
    {frames : List Frame}
    {steps : Nat}
    {start : Option Nat}
    {frame : Frame}
    (hMem : frame ∈ outward frames steps start) :
    frame ∈ frames := by
  induction steps generalizing start with
  | zero => cases hMem
  | succ steps ih =>
      cases start with
      | none => cases hMem
      | some id =>
          unfold outward at hMem
          split at hMem
          · cases hMem
          · rename_i found hFound
            rcases List.mem_cons.mp hMem with rfl | hOuter
            · exact List.mem_of_getElem? hFound
            · exact ih hOuter

/- A variable that is found has complete members. -/
theorem Sound.lookup
    {s : Scope}
    {name : String}
    {x : Identifier}
    (hSound : s.Sound)
    (hLookup : s.lookup name = some (.var x)) :
    x.ty.MembersSpecified := by
  unfold Scope.lookup at hLookup
  split at hLookup
  · rename_i y hVar
    cases hLookup
    rcases List.exists_of_findSome?_eq_some hVar with
      ⟨frame, hFrame, hFind⟩
    exact hSound.declared frame (mem_of_mem_outward hFrame)
      x (List.mem_of_find?_eq_some hFind)
  · simp at hLookup

end Scope

end Bracketry
