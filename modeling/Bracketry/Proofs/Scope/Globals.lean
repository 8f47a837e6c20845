import Bracketry.Proofs.Ty.Reading

/-
  This file follows the functions and records of a program
  while it is read.

  Records and headers are added and never taken away, and
  all types in them are made of the records known.  Members
  and parameters have complete lengths; types of results
  need not.  A header keeps its number and its types, even
  when a body gives other names to its parameters.

  Main declarations:
    * `Globals.Grows` and `Globals.Formed`
    * `Globals.Formed.declarePrototype`
    * `Globals.Formed.implement`
-/

namespace Bracketry

/- A length that an array of a complete type can have. -/
def Ty.LengthOk (n : Nat) : Prop :=
  0 < n ∧ n ≤ lengthLimit

instance (n : Nat) : Decidable (Ty.LengthOk n) := by
  unfold Ty.LengthOk
  infer_instance

namespace Globals

variable {g g₁ g' : Globals}

/- All records and functions are kept. -/
structure Extends (g g' : Globals) : Prop where
  records : ∀ r ∈ g.records, r ∈ g'.records
  prototypes :
    ∀ p ∈ g.prototypes, ∃ p' ∈ g'.prototypes,
      p'.name = p.name

namespace Extends

theorem refl
    (g : Globals) :
    g.Extends g :=
  ⟨fun _ => id, fun p hMem => ⟨p, hMem, rfl⟩⟩

theorem trans
    (h₁ : g.Extends g₁)
    (h₂ : g₁.Extends g') :
    g.Extends g' where
  records := fun r hMem => h₂.records r (h₁.records r hMem)
  prototypes := by
    intro p hMem
    rcases h₁.prototypes p hMem with ⟨p₁, hMem₁, hName₁⟩
    rcases h₂.prototypes p₁ hMem₁ with ⟨p₂, hMem₂, hName₂⟩
    exact ⟨p₂, hMem₂, hName₂.trans hName₁⟩

theorem declareRecord
    {name : String}
    {members : List (String × Ty)}
    {line : Nat}
    {r : Record}
    (hOk : g.declareRecord name members line =
      .ok (r, g')) :
    g.Extends g' ∧ g'.prototypes = g.prototypes ∧
      g'.records = g.records ++ [r] ∧
        r.members = members := by
  rw [Globals.declareRecord_eq] at hOk
  split at hOk
  · cases hOk
  · cases hOk
    refine ⟨⟨?_, fun p hMem => ⟨p, hMem, rfl⟩⟩, rfl,
      rfl, rfl⟩
    exact fun _ hMem => List.mem_append_left _ hMem

theorem declarePrototype
    {name : Identifier}
    {params : List Identifier}
    {line : Nat}
    {p : Prototype}
    (hOk : g.declarePrototype name params line =
      .ok (p, g')) :
    g.Extends g' ∧ g'.records = g.records ∧
      g'.prototypes = g.prototypes ++ [p] ∧
      p.name = name ∧ p.params = params := by
  rw [Globals.declarePrototype_eq] at hOk
  split at hOk
  · cases hOk
  · cases hOk
    refine ⟨⟨fun _ => id, ?_⟩, rfl, rfl, rfl, rfl⟩
    exact fun p hMem =>
      ⟨p, List.mem_append_left _ hMem, rfl⟩

/- A header is changed in nothing but its parameters. -/
theorem of_mem_implement
    {id : Nat}
    {params : List Identifier}
    {p : Prototype}
    (hMem : p ∈ (g.implement id params).prototypes) :
    ∃ old ∈ g.prototypes, old.name = p.name ∧
      (p = old ∨ p.params = params) := by
  rcases List.mem_iff_getElem?.mp hMem with ⟨i, hAt⟩
  change (g.prototypes.modify id _)[i]? = some p at hAt
  rw [List.getElem?_modify] at hAt
  rcases Option.map_eq_some_iff.mp hAt with ⟨old, hOld, hEq⟩
  refine ⟨old, List.mem_of_getElem? hOld, ?_⟩
  split at hEq
  · rw [← hEq]
    exact ⟨rfl, .inr rfl⟩
  · exact ⟨congrArg Prototype.name hEq, .inl hEq.symm⟩

theorem implement
    (g : Globals)
    (id : Nat)
    (params : List Identifier) :
    g.Extends (g.implement id params) := by
  refine ⟨fun _ => fun hMem => hMem, ?_⟩
  intro p hMem
  rcases List.mem_iff_getElem?.mp hMem with ⟨i, hAt⟩
  have hNew :
      (g.implement id params).prototypes[i]? =
        some (if id = i then
          { p with implemented := true, params := params }
            else p) := by
    change (g.prototypes.modify id _)[i]? = _
    rw [List.getElem?_modify, hAt]
    split <;> rfl
  refine ⟨_, List.mem_of_getElem? hNew, ?_⟩
  split <;> rfl

end Extends

------------------------------------------------------------
-- Headers by Number
------------------------------------------------------------

/- Every header stands at its own number. -/
def Numbered (g : Globals) : Prop :=
  ∀ (i : Nat) (p : Prototype), g.prototypes[i]? = some p →
    p.id = i

/- Headers keep their number, name and types. -/
def Grows (g g' : Globals) : Prop :=
  ∀ (i : Nat) (p : Prototype), g.prototypes[i]? = some p →
    ∃ p', g'.prototypes[i]? = some p' ∧ p'.name = p.name ∧
      p'.paramTypes = p.paramTypes

theorem Grows.refl
    (g : Globals) :
    g.Grows g :=
  fun _ p hAt => ⟨p, hAt, rfl, rfl⟩

theorem Grows.trans
    (h₁ : g.Grows g₁)
    (h₂ : g₁.Grows g') :
    g.Grows g' := by
  intro i p hAt
  rcases h₁ i p hAt with ⟨p₁, hAt₁, hName₁, hParams₁⟩
  rcases h₂ i p₁ hAt₁ with ⟨p₂, hAt₂, hName₂, hParams₂⟩
  exact ⟨p₂, hAt₂, hName₂.trans hName₁,
    hParams₂.trans hParams₁⟩

theorem Grows.of_prototypes
    (hSame : g'.prototypes = g.prototypes) :
    g.Grows g' := by
  intro i p hAt
  rw [← hSame] at hAt
  exact ⟨p, hAt, rfl, rfl⟩

theorem Numbered.of_prototypes
    (hNumbered : g.Numbered)
    (hSame : g'.prototypes = g.prototypes) :
    g'.Numbered := by
  unfold Numbered
  rw [hSame]
  exact hNumbered

theorem Numbered.empty :
    Globals.empty.Numbered := by
  intro i p hAt
  cases hAt

variable {p : Prototype}

theorem Numbered.getElem?_id
    (hNumbered : g.Numbered)
    (hMem : p ∈ g.prototypes) :
    g.prototypes[p.id]? = some p := by
  rcases List.mem_iff_getElem?.mp hMem with ⟨i, hAt⟩
  rw [hNumbered i p hAt]
  exact hAt

/- A new header takes the next number. -/
theorem Numbered.declarePrototype
    {name : Identifier}
    {params : List Identifier}
    {line : Nat}
    (hNumbered : g.Numbered)
    (hOk : g.declarePrototype name params line =
      .ok (p, g')) :
    g'.Numbered ∧ g.Grows g' := by
  rw [Globals.declarePrototype_eq] at hOk
  split at hOk
  · cases hOk
  · cases hOk
    constructor
    · intro i q hAt
      rw [List.getElem?_append] at hAt
      split at hAt
      · exact hNumbered i q hAt
      · rename_i hBehind
        rcases List.getElem?_eq_some_iff.mp hAt with
          ⟨hLast, rfl⟩
        rw [List.length_singleton] at hLast
        rw [List.getElem_singleton]
        change g.prototypes.length = i
        omega
    · intro i q hAt
      have hBefore := (List.getElem?_eq_some_iff.mp hAt).1
      refine ⟨q, ?_, rfl, rfl⟩
      rw [List.getElem?_append_left hBefore]
      exact hAt

theorem getElem?_implement
    (g : Globals)
    (id : Nat)
    (params : List Identifier)
    (i : Nat) :
    (g.implement id params).prototypes[i]? =
      g.prototypes[i]?.map fun p =>
        if id = i then
          { p with implemented := true, params := params }
        else p :=
  List.getElem?_modify ..

/- What is not about bodies and parameters is kept. -/
theorem map_implement
    {α : Type}
    {params : List Identifier}
    (view : Prototype → α)
    (hView :
      ∀ p : Prototype,
        view { p with
          implemented := true, params := params } = view p)
    (g : Globals)
    (id : Nat) :
    (g.implement id params).prototypes.map view =
      g.prototypes.map view := by
  refine List.ext_getElem? fun i => ?_
  rw [List.getElem?_map, List.getElem?_map,
    getElem?_implement, Option.map_map]
  refine congrArg (Option.map · _) (funext fun p => ?_)
  rw [Function.comp_apply]
  split
  · exact hView p
  · rfl

theorem Numbered.implement
    (hNumbered : g.Numbered)
    (id : Nat)
    (params : List Identifier) :
    (g.implement id params).Numbered := by
  intro i p hAt
  rw [getElem?_implement] at hAt
  rcases Option.map_eq_some_iff.mp hAt with ⟨old, hOld, rfl⟩
  split
  · exact hNumbered i old hOld
  · exact hNumbered i old hOld

/- A body is given under parameters of the same types. -/
theorem Grows.implement
    {params : List Identifier}
    (hNumbered : g.Numbered)
    (hMem : p ∈ g.prototypes)
    (hTypes : p.paramTypes = params.map (·.ty)) :
    g.Grows (g.implement p.id params) := by
  intro i q hAt
  rw [getElem?_implement, hAt]
  refine ⟨_, rfl, ?_⟩
  split
  · rename_i hNumber
    have hSame : some p = some q := by
      rw [← hNumbered.getElem?_id hMem, hNumber, hAt]
    cases hSame
    exact ⟨rfl, hTypes.symm⟩
  · exact ⟨rfl, rfl⟩

/- All types are made of the records known. -/
structure Formed (g : Globals) : Prop where
  members :
    ∀ r ∈ g.records, ∀ m ∈ r.members,
      m.2.Formed g Ty.LengthOk
  params :
    ∀ p ∈ g.prototypes, ∀ x ∈ p.params,
      x.ty.Formed g Ty.LengthOk ∧ x.ty ≠ .void
  returns : ∀ p ∈ g.prototypes, p.returnType.Spelled g

namespace Formed

theorem empty :
    Globals.empty.Formed where
  members := by simp [Globals.empty]
  params := by simp [Globals.empty]
  returns := by simp [Globals.empty]

theorem declareRecord
    {fields : List Field}
    {name : String}
    {line : Nat}
    {r : Record}
    (hFormed : g.Formed)
    (hSpelled : ∀ field ∈ fields, field.ty.Spelled g)
    (hSpecified : ∀ field ∈ fields,
      field.ty.IsFullySpecified)
    (hOk :
      g.declareRecord name
        (fields.map fun field => (field.name, field.ty))
          line = .ok (r, g')) :
    g'.Formed := by
  rcases Extends.declareRecord hOk with
    ⟨hExtends, hPrototypes, hRecords, hMembers⟩
  refine ⟨?_, ?_, ?_⟩
  · rw [hRecords]
    refine List.forall_mem_append.mpr ⟨?_, ?_⟩
    · exact fun r hMem m hMember =>
        (hFormed.members r hMem m hMember).extend
          hExtends.records
    · refine List.forall_mem_singleton.mpr ?_
      rw [hMembers, List.forall_mem_map]
      intro field hMem
      exact ((hSpelled field hMem).extend
        hExtends.records).positive (hSpecified field hMem)
  · rw [hPrototypes]
    intro p hMem x hParam
    rcases hFormed.params p hMem x hParam with
      ⟨hOne, hSolid⟩
    exact ⟨hOne.extend hExtends.records, hSolid⟩
  · rw [hPrototypes]
    exact fun p hMem =>
      (hFormed.returns p hMem).extend hExtends.records

theorem declarePrototype
    {name : Identifier}
    {params : List Identifier}
    {line : Nat}
    {p : Prototype}
    (hFormed : g.Formed)
    (hReturn : name.ty.Spelled g)
    (hParams :
      ∀ x ∈ params, x.ty.Formed g Ty.LengthOk ∧
        x.ty ≠ .void)
    (hOk : g.declarePrototype name params line =
      .ok (p, g')) :
    g'.Formed := by
  rcases Extends.declarePrototype hOk with
    ⟨hExtends, hRecords, hPrototypes, hName, hSame⟩
  refine ⟨?_, ?_, ?_⟩
  · rw [hRecords]
    exact fun r hMem m hMember =>
      (hFormed.members r hMem m hMember).extend
        hExtends.records
  · rw [hPrototypes]
    refine List.forall_mem_append.mpr ⟨?_, ?_⟩
    · intro p hMem x hParam
      rcases hFormed.params p hMem x hParam with
        ⟨hOne, hSolid⟩
      exact ⟨hOne.extend hExtends.records, hSolid⟩
    · refine List.forall_mem_singleton.mpr ?_
      rw [hSame]
      intro x hParam
      rcases hParams x hParam with ⟨hOne, hSolid⟩
      exact ⟨hOne.extend hExtends.records, hSolid⟩
  · rw [hPrototypes]
    refine List.forall_mem_append.mpr ⟨?_, ?_⟩
    · exact fun p hMem =>
        (hFormed.returns p hMem).extend hExtends.records
    · refine List.forall_mem_singleton.mpr ?_
      rw [Prototype.returnType, hName]
      exact hReturn.extend hExtends.records

theorem implement
    {params : List Identifier}
    (hFormed : g.Formed)
    (hParams :
      ∀ x ∈ params, x.ty.Formed g Ty.LengthOk ∧
        x.ty ≠ .void)
    (id : Nat) :
    (g.implement id params).Formed := by
  have hSame :
      ∀ r ∈ g.records,
        r ∈ (g.implement id params).records :=
    fun _ hMem => hMem
  refine ⟨?_, ?_, ?_⟩
  · exact fun r hMem m hMember =>
      (hFormed.members r hMem m hMember).extend hSame
  · intro p hMem x hParam
    rcases Extends.of_mem_implement hMem with
      ⟨old, hOld, -, rfl | hNew⟩
    · rcases hFormed.params p hOld x hParam with
        ⟨hOne, hSolid⟩
      exact ⟨hOne.extend hSame, hSolid⟩
    · rw [hNew] at hParam
      rcases hParams x hParam with ⟨hOne, hSolid⟩
      exact ⟨hOne.extend hSame, hSolid⟩
  · intro p hMem
    rcases Extends.of_mem_implement hMem with
      ⟨old, hOld, hName, -⟩
    have hReturn := (hFormed.returns old hOld).extend hSame
    rw [Prototype.returnType, hName] at hReturn
    exact hReturn

end Formed

end Globals

end Bracketry
