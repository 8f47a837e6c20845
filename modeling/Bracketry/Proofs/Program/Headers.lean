import Bracketry.Proofs.Expr.Vocabulary
import Bracketry.Proofs.Program.Closure
import Bracketry.Proofs.Program.Scoping
import Bracketry.Proofs.Stmt.Nodes
import Mathlib.Data.List.Nodup

/-
  This file follows headers and bodies through a program
  that is read.

  A call is checked against the header known where it
  stands, which keeps its number and its types.  A header is
  declared once, and it is marked when a body is given for
  it; a second body is refused.  A record is declared once
  too, behind all records that its members are made of.

  Main declarations:
    * `Globals.Listed` and `Record.Ranked`
    * `Program.implemented_iff`
    * `Program.compile_of_unimplemented`
-/

namespace Bracketry

variable {p : Prototype}

/- All statements of a function are sound. -/
def FunctionDef.Sound
    (g : Globals)
    (f : FunctionDef) : Prop :=
  ∀ st ∈ f.body.within, st.Sound g f.signature.returnType

theorem FunctionDef.Sound.grow
    {g g' : Globals}
    {f : FunctionDef}
    (hSound : f.Sound g)
    (hGrows : g.Grows g') :
    f.Sound g' :=
  fun st hMem => (hSound st hMem).grow hGrows

namespace Program

/- A header has a number, and types as written. -/
theorem Headed.numbered
    {c c' : Context}
    {returnType : Ty}
    {params : List Identifier}
    {hasBody : Bool}
    (hHead : Headed c returnType params hasBody p c')
    (hNumbered : c.scope.globals.Numbered) :
    c'.scope.globals.Numbered ∧
      c.scope.globals.Grows c'.scope.globals ∧
      p ∈ c'.scope.globals.prototypes ∧
      p.paramTypes = params.map (·.ty) := by
  cases hHead with
  | known hFind hSignature _ =>
      exact ⟨hNumbered, .refl _,
        List.mem_of_find?_eq_some hFind, hSignature.2⟩
  | @new _ _ _ globals hOk =>
      rcases hNumbered.declarePrototype hOk with
        ⟨hNumbered', hGrows⟩
      rcases Globals.Extends.declarePrototype hOk with
        ⟨-, -, hPrototypes, -, hParams⟩
      refine ⟨hNumbered', hGrows, ?_, congrArg _ hParams⟩
      change p ∈ globals.prototypes
      rw [hPrototypes]
      exact List.mem_append_right _
        (List.mem_singleton_self p)

/- All functions are sound under the last headers. -/
theorem Read.obeys
    {c c' : Context}
    {fs : List FunctionDef}
    (hRead : Read c fs c')
    (hNumbered : c.scope.globals.Numbered) :
    c.scope.globals.Grows c'.scope.globals ∧
      ∀ f ∈ fs, f.Sound c'.scope.globals := by
  induction hRead with
  | nil => exact ⟨.refl _, by simp⟩
  | @record c _ _ _ _ _ globals _ _ _ _ hOk _ ih =>
      rcases Globals.Extends.declareRecord hOk with
        ⟨-, hSame, -⟩
      have hRecord :
          (c.withGlobals globals).scope.globals.Numbered :=
        hNumbered.of_prototypes hSame
      rcases ih hRecord with ⟨hGrows, hSound⟩
      exact ⟨(Globals.Grows.of_prototypes hSame).trans
        hGrows, hSound⟩
  | @header _ c₁ _ _ _ _ _ _ _ hParams hHead _ ih =>
      rw [← hParams.globals] at hNumbered ⊢
      rcases hHead.numbered hNumbered with
        ⟨hNumbered₁, hGrows₁, -⟩
      have hLeft : c₁.leave.scope.globals.Numbered :=
        hNumbered₁
      rcases ih hLeft with ⟨hGrows, hSound⟩
      exact ⟨hGrows₁.trans hGrows, hSound⟩
  | @function _ c₁ c₂ _ _ _ params p _ _ _ _ _ hParams hHead
      hBody _ ih =>
        rw [← hParams.globals] at hNumbered ⊢
        rcases hHead.numbered hNumbered with
          ⟨hNumbered₁, hGrows₁, hMem, hTypes⟩
        have hInside := hNumbered₁.implement p.id params
        have hGiven :=
          Globals.Grows.implement hNumbered₁ hMem hTypes
        have hBehind :
            c₂.leaveFunction.scope.globals =
              c₁.scope.globals.implement p.id params :=
          hBody.kept.globals
        rw [hBehind] at ih
        rcases ih hInside with ⟨hGrows, hSound⟩
        refine ⟨hGrows₁.trans (hGiven.trans hGrows), ?_⟩
        refine List.forall_mem_cons.mpr ⟨?_, hSound⟩
        have hStart :
            (c₁.enterFunction p params).Returning
              (c₁.scope.globals.implement p.id params)
                p.returnType := by
          refine ⟨rfl, ?_⟩
          rintro _ ⟨⟩
          rfl
        refine FunctionDef.Sound.grow ?_ hGrows
        exact Stmt.within_ofList_sound
          (hBody.obeys hInside hStart) _

/-
  Every node of a program that is read has the type its
  parts give it, and every break stands in a loop.
-/
theorem nodes_obey
    {source : String}
    {p : Program}
    (hParse : Program.parse source = .ok p) :
    ∀ f ∈ p.functions,
      (∀ st ∈ f.body.within,
        st.Obeys f.signature.returnType ∧
          ∀ node ∈ st.nodes, node.Obeys p.globals) ∧
      f.body.breaksEnclosed = true := by
  rcases read_of_parse hParse with ⟨c, hRead, hGlobals⟩
  rw [hGlobals]
  intro f hMem
  refine ⟨fun st hInside => ?_, ?_⟩
  · have hSound := (hRead.obeys .empty).2 f hMem st hInside
    exact ⟨hSound.obeys, hSound.nodes⟩
  · exact (accepted_of_parse hParse f hMem).breaks rfl

theorem sample_obeys :
    ∃ p, Program.parse sample = .ok p ∧
      p.functions.length = 2 ∧
      ∀ f ∈ p.functions,
        (∀ st ∈ f.body.within,
          st.Obeys f.signature.returnType ∧
            ∀ node ∈ st.nodes, node.Obeys p.globals) ∧
        f.body.breaksEnclosed = true := by
  rcases sample_lowers with ⟨p, listing, hParse, -, hTwo, -⟩
  exact ⟨p, hParse, hTwo, nodes_obey hParse⟩

end Program

------------------------------------------------------------
-- Headers
------------------------------------------------------------

/- A new name behind different names. -/
theorem nodup_names_append
    {α : Type}
    {name : α → String}
    {items : List α}
    {new : α}
    (hNames : (items.map name).Nodup)
    (hNew : ∀ item ∈ items, name item ≠ name new) :
    ((items ++ [new]).map name).Nodup := by
  rw [List.map_append, List.map_singleton]
  refine List.nodup_append.mpr ⟨hNames, by simp, ?_⟩
  intro first hFirst second hSecond
  rcases List.mem_map.mp hFirst with ⟨item, hMem, rfl⟩
  cases List.mem_singleton.mp hSecond
  exact hNew item hMem

namespace Globals

variable {g g' : Globals}

/- Headers have numbers and names of their own. -/
structure Listed (g : Globals) : Prop where
  numbered : g.Numbered
  names : (g.prototypes.map (·.name.name)).Nodup
  bound : ∀ p ∈ g.prototypes, p.name.binding = .global

/- A body has been given for the header of a number. -/
def hasBody
    (g : Globals)
    (i : Nat) : Bool :=
  g.prototypes[i]?.any (·.implemented)

theorem hasBody_id
    (hNumbered : g.Numbered)
    (hMem : p ∈ g.prototypes) :
    g.hasBody p.id = p.implemented := by
  rw [hasBody, hNumbered.getElem?_id hMem, Option.any_some]

theorem hasBody_of_prototypes
    (hSame : g'.prototypes = g.prototypes)
    (i : Nat) :
    g'.hasBody i = g.hasBody i := by
  rw [hasBody, hasBody, hSame]

namespace Listed

theorem empty :
    Globals.empty.Listed :=
  ⟨.empty, by simp [Globals.empty], by simp [Globals.empty]⟩

theorem of_prototypes
    (hListed : g.Listed)
    (hSame : g'.prototypes = g.prototypes) :
    g'.Listed := by
  refine ⟨hListed.numbered.of_prototypes hSame, ?_, ?_⟩
  · rw [hSame]
    exact hListed.names
  · rw [hSame]
    exact hListed.bound

/- Headers of one name are one header. -/
theorem eq_of_name
    {p q : Prototype}
    (hListed : g.Listed)
    (hFirst : p ∈ g.prototypes)
    (hSecond : q ∈ g.prototypes)
    (hName : p.name.name = q.name.name) :
    p = q :=
  List.inj_on_of_nodup_map hListed.names hFirst
    hSecond hName

/- The name of a new header is new, and it has no body. -/
theorem declarePrototype
    {name : Identifier}
    {params : List Identifier}
    {line : Nat}
    {p : Prototype}
    (hListed : g.Listed)
    (hGlobal : name.binding = .global)
    (hOk : g.declarePrototype name params line =
      .ok (p, g')) :
    g'.Listed ∧ p.implemented = false ∧
      ∀ i, g'.hasBody i = g.hasBody i := by
  have hNumbered :=
    (hListed.numbered.declarePrototype hOk).1
  rw [Globals.declarePrototype_eq] at hOk
  split at hOk
  · cases hOk
  · rename_i hNone
    cases hOk
    refine ⟨⟨hNumbered, ?_, ?_⟩, rfl, ?_⟩
    · refine nodup_names_append hListed.names fun q hMem =>
        ?_
      simpa using List.find?_eq_none.mp hNone q hMem
    · exact List.forall_mem_append.mpr
        ⟨hListed.bound,
          List.forall_mem_singleton.mpr hGlobal⟩
    · intro i
      rw [hasBody, hasBody, List.getElem?_append]
      split
      · rfl
      · rename_i hBehind
        rw [List.getElem?_eq_none (Nat.not_lt.mp hBehind)]
        cases i - g.prototypes.length <;> rfl

/- A body is given for one header, which keeps its name. -/
theorem implement
    {p : Prototype}
    (hListed : g.Listed)
    (hMem : p ∈ g.prototypes)
    (params : List Identifier) :
    (g.implement p.id params).Listed ∧
      ∀ i, (g.implement p.id params).hasBody i =
        (g.hasBody i || decide (p.id = i)) := by
  refine ⟨⟨hListed.numbered.implement p.id params, ?_, ?_⟩,
    ?_⟩
  · rw [map_implement (·.name.name) fun _ => rfl]
    exact hListed.names
  · intro q hIn
    rcases Extends.of_mem_implement hIn with
      ⟨old, hOld, hName, -⟩
    rw [← hName]
    exact hListed.bound old hOld
  · intro i
    rw [hasBody, hasBody, getElem?_implement]
    by_cases hNumber : p.id = i
    · have hAt := hListed.numbered.getElem?_id hMem
      rw [hNumber] at hAt
      simp [hAt, hNumber]
    · simp [hNumber]

end Listed

end Globals

/-
  Records have names of their own, and the members of each
  are made of records before it.
-/
structure Record.Ranked (records : List Record) : Prop where
  names : (records.map Record.name).Nodup
  members :
    ∀ (i : Nat) (r : Record), records[i]? = some r →
      ∀ m ∈ r.members, m.2.Known (records.take i)

theorem Record.Ranked.declareRecord
    {g g' : Globals}
    {fields : List Field}
    {name : String}
    {line : Nat}
    {r : Record}
    (hRanked : Record.Ranked g.records)
    (hSpelled : ∀ field ∈ fields, field.ty.Spelled g)
    (hOk :
      g.declareRecord name
        (fields.map fun field => (field.name, field.ty))
          line = .ok (r, g')) :
    Record.Ranked g'.records := by
  rw [Globals.declareRecord_eq] at hOk
  split at hOk
  · cases hOk
  · rename_i hNone
    cases hOk
    constructor
    · refine nodup_names_append hRanked.names fun q hMem =>
        ?_
      simpa using List.find?_eq_none.mp hNone q hMem
    · intro i q hAt m hMember
      rw [List.getElem?_append] at hAt
      split at hAt
      · rename_i hBefore
        rw [List.take_append_of_le_length
          (Nat.le_of_lt hBefore)]
        exact hRanked.members i q hAt m hMember
      · rename_i hBehind
        rcases List.getElem?_eq_some_iff.mp hAt with
          ⟨hLast, rfl⟩
        rw [List.length_singleton] at hLast
        have hEnd : i = g.records.length := by omega
        rw [List.getElem_singleton] at hMember
        rcases List.mem_map.mp hMember with
          ⟨field, hField, rfl⟩
        rw [hEnd, List.take_left]
        exact (hSpelled field hField).known

namespace Program

/- A header is new, or known and then of the same kind. -/
theorem Headed.listed
    {c c' : Context}
    {returnType : Ty}
    {params : List Identifier}
    {hasBody : Bool}
    (hHead : Headed c returnType params hasBody p c')
    (hListed : c.scope.globals.Listed) :
    c'.scope.globals.Listed ∧
      (∀ i, c'.scope.globals.hasBody i =
        c.scope.globals.hasBody i) ∧
      (hasBody = true → p.implemented = false) := by
  cases hHead with
  | known _ _ hFree =>
      refine ⟨hListed, fun _ => rfl, ?_⟩
      rintro rfl
      simpa using hFree
  | new hOk =>
      rcases hListed.declarePrototype rfl hOk with
        ⟨hListed', hBare, hSame⟩
      exact ⟨hListed', hSame, fun _ => hBare⟩

section

variable {c c' : Context} {fs : List FunctionDef}

/-
  Bodies are given for the headers of the functions, each of
  which had none before.
-/
theorem Read.listed
    (hRead : Read c fs c')
    (hListed : c.scope.globals.Listed) :
    c'.scope.globals.Listed ∧
      (∀ i, c'.scope.globals.hasBody i =
        (c.scope.globals.hasBody i ||
          decide (i ∈ fs.map (·.signature.id)))) ∧
      (fs.map (·.signature.id)).Nodup ∧
      ∀ f ∈ fs, c.scope.globals.hasBody f.signature.id =
        false := by
  induction hRead with
  | nil => exact ⟨hListed, by simp, by simp, by simp⟩
  | @record c _ _ _ _ _ globals _ _ _ _ hOk _ ih =>
      rcases Globals.Extends.declareRecord hOk with
        ⟨-, hSame, -⟩
      have hRecord :
          (c.withGlobals globals).scope.globals.Listed :=
        hListed.of_prototypes hSame
      have hBodies := Globals.hasBody_of_prototypes hSame
      rcases ih hRecord with ⟨hLast, hAll, hOnce, hFree⟩
      refine ⟨hLast, fun i => ?_, hOnce, fun f hMem => ?_⟩
      · rw [← hBodies i]
        exact hAll i
      · rw [← hBodies]
        exact hFree f hMem
  | @header _ c₁ _ _ _ _ _ _ _ hParams hHead _ ih =>
      rw [← hParams.globals] at hListed ⊢
      rcases hHead.listed hListed with ⟨hListed₁, hSame, -⟩
      have hLeft : c₁.leave.scope.globals.Listed := hListed₁
      rcases ih hLeft with ⟨hLast, hAll, hOnce, hFree⟩
      refine ⟨hLast, fun i => ?_, hOnce, fun f hMem => ?_⟩
      · exact (hAll i).trans (congrArg (· || _) (hSame i))
      · exact (hSame _).symm.trans (hFree f hMem)
  | @function _ c₁ c₂ _ _ _ params p _ _ _ fs _ hParams
      hHead hBody _ ih =>
        rw [← hParams.globals] at hListed ⊢
        rcases hHead.listed hListed with
          ⟨hListed₁, hSame, hBare⟩
        have hMem := (hHead.numbered hListed.numbered).2.2.1
        rcases hListed₁.implement hMem params with
          ⟨hInside, hGiven⟩
        have hBehind :
            c₂.leaveFunction.scope.globals =
              c₁.scope.globals.implement p.id params :=
          hBody.kept.globals
        rw [hBehind] at ih
        rcases ih hInside with ⟨hLast, hAll, hOnce, hFree⟩
        have hOthers :
            ∀ f ∈ fs, c₁.scope.globals.hasBody
              f.signature.id = false ∧
              p.id ≠ f.signature.id := by
          intro f hIn
          simpa [hGiven] using hFree f hIn
        refine ⟨hLast, fun i => ?_, ?_, ?_⟩
        · rw [hAll, hGiven, hSame, List.map_cons]
          by_cases hNumber : p.id = i
          · simp [hNumber]
          · simp [hNumber, Ne.symm hNumber]
        · refine List.nodup_cons.mpr ⟨fun hIn => ?_, hOnce⟩
          rcases List.mem_map.mp hIn with ⟨f, hF, hNumber⟩
          exact (hOthers f hF).2 hNumber.symm
        · refine List.forall_mem_cons.mpr
            ⟨?_, fun f hF => ?_⟩
          · rw [← hSame, Globals.hasBody_id
              hListed₁.numbered hMem]
            exact hBare rfl
          · rw [← hSame]
            exact (hOthers f hF).1

/- A function has the name and the types of its header. -/
theorem Read.signatures
    (hRead : Read c fs c')
    (hNumbered : c.scope.globals.Numbered) :
    ∀ f ∈ fs, ∃ p,
      c'.scope.globals.prototypes[f.signature.id]? =
        some p ∧ p.name = f.signature.name ∧
        p.paramTypes = f.signature.paramTypes := by
  induction hRead with
  | nil => simp
  | record _ _ _ hOk _ ih =>
      rcases Globals.Extends.declareRecord hOk with
        ⟨-, hSame, -⟩
      exact ih (hNumbered.of_prototypes hSame)
  | header _ hParams hHead _ ih =>
      rw [← hParams.globals] at hNumbered
      exact ih (hHead.numbered hNumbered).1
  | @function _ c₁ c₂ _ _ _ params p _ _ _ fs _ hParams
      hHead hBody hRest ih =>
      rw [← hParams.globals] at hNumbered
      rcases hHead.numbered hNumbered with
        ⟨hNumbered₁, -, hMem, -⟩
      have hBehind :
          c₂.leaveFunction.scope.globals =
            c₁.scope.globals.implement p.id params :=
        hBody.kept.globals
      have hInside := hNumbered₁.implement p.id params
      rw [← hBehind] at hInside
      refine List.forall_mem_cons.mpr ⟨?_, ih hInside⟩
      refine (hRest.obeys hInside).1 p.id
        { p with implemented := true, params := params } ?_
      rw [hBehind, Globals.getElem?_implement,
        hNumbered₁.getElem?_id hMem, Option.map_some,
          if_pos rfl]

theorem Read.ranked
    (hRead : Read c fs c')
    (hRanked : Record.Ranked c.scope.globals.records) :
    Record.Ranked c'.scope.globals.records := by
  induction hRead with
  | nil => exact hRanked
  | record hSpelled _ _ hOk _ ih =>
      exact ih (hRanked.declareRecord hSpelled hOk)
  | @header _ c₁ _ _ _ _ _ _ _ hParams hHead _ ih =>
      have hSame := hHead.kept.1
      rw [← hParams.globals] at hRanked
      refine ih ?_
      change Record.Ranked c₁.scope.globals.records
      rw [hSame]
      exact hRanked
  | @function _ c₁ c₂ _ _ _ params p _ _ _ _ _ hParams hHead
      hBody _ ih =>
        have hSame := hHead.kept.1
        have hBehind :
            c₂.scope.globals =
              c₁.scope.globals.implement p.id params :=
          hBody.kept.globals
        rw [← hParams.globals] at hRanked
        refine ih ?_
        change Record.Ranked c₂.scope.globals.records
        rw [hBehind]
        change Record.Ranked c₁.scope.globals.records
        rw [hSame]
        exact hRanked

end

section

variable {source : String} {p : Program} {f : FunctionDef}

/- A body is given for a header: a function has its name. -/
def Implements
    (p : Program)
    (header : Prototype) : Prop :=
  ∃ f ∈ p.functions, f.signature.name.name =
    header.name.name

theorem listed_of_parse
    (hParse : Program.parse source = .ok p) :
    p.globals.Listed := by
  rcases read_of_parse hParse with ⟨c, hRead, hGlobals⟩
  rw [hGlobals]
  exact (hRead.listed .empty).1

theorem ranked_of_parse
    (hParse : Program.parse source = .ok p) :
    Record.Ranked p.globals.records := by
  rcases read_of_parse hParse with ⟨c, hRead, hGlobals⟩
  rw [hGlobals]
  exact hRead.ranked
    ⟨List.nodup_nil, by simp [Context.start, Scope.empty,
    Globals.empty]⟩

/- Every function has a header of its types. -/
theorem header_of_mem
    (hParse : Program.parse source = .ok p)
    (hMem : f ∈ p.functions) :
    ∃ header ∈ p.globals.prototypes,
      header.id = f.signature.id ∧
        header.name = f.signature.name ∧
        header.paramTypes = f.signature.paramTypes := by
  have hListed := listed_of_parse hParse
  rcases read_of_parse hParse with ⟨c, hRead, hGlobals⟩
  rw [hGlobals] at hListed ⊢
  rcases hRead.signatures .empty f hMem with
    ⟨header, hAt, hName, hTypes⟩
  exact ⟨header, List.mem_of_getElem? hAt,
    hListed.numbered _ _ hAt, hName, hTypes⟩

variable {header : Prototype}

/- The header of a function is the one with its name. -/
theorem header_of_name
    (hParse : Program.parse source = .ok p)
    (hFunction : f ∈ p.functions)
    (hMem : header ∈ p.globals.prototypes)
    (hName : f.signature.name.name = header.name.name) :
    header.id = f.signature.id ∧
      header.name = f.signature.name ∧
      header.paramTypes = f.signature.paramTypes := by
  rcases header_of_mem hParse hFunction with
    ⟨own, hOwn, hSame⟩
  have hEq : own = header := by
    refine (listed_of_parse hParse).eq_of_name hOwn hMem ?_
    rw [hSame.2.1]
    exact hName
  rw [← hEq]
  exact hSame

/- The marked headers are those of the functions. -/
theorem implemented_iff
    (hParse : Program.parse source = .ok p)
    (hMem : header ∈ p.globals.prototypes) :
    header.implemented = true ↔ p.Implements header := by
  have hListed := listed_of_parse hParse
  rcases read_of_parse hParse with ⟨c, hRead, hGlobals⟩
  have hBody := (hRead.listed .empty).2.1 header.id
  rw [← hGlobals, Globals.hasBody_id hListed.numbered hMem]
    at hBody
  change header.implemented =
    decide (_ ∈ p.functions.map _) at hBody
  rw [hBody, decide_eq_true_iff, List.mem_map]
  constructor
  · rintro ⟨f, hF, hNumber⟩
    rcases header_of_mem hParse hF with
      ⟨own, hOwn, hSame, hName, -⟩
    have hEq : some own = some header := by
      rw [← hListed.numbered.getElem?_id hOwn,
        ← hListed.numbered.getElem?_id hMem, hSame, hNumber]
    cases hEq
    exact ⟨f, hF, congrArg Identifier.name hName.symm⟩
  · rintro ⟨f, hF, hName⟩
    exact ⟨f, hF,
      (header_of_name hParse hF hMem hName).1.symm⟩

/- No two functions have one name. -/
theorem names_nodup
    (hParse : Program.parse source = .ok p) :
    (p.functions.map (·.signature.name.name)).Nodup := by
  rcases read_of_parse hParse with ⟨c, hRead, -⟩
  have hOnce := (hRead.listed .empty).2.2.1
  unfold List.Nodup at hOnce ⊢
  rw [List.pairwise_map] at hOnce ⊢
  refine hOnce.imp_of_mem ?_
  intro f g hF hG hNumbers hNames
  rcases header_of_mem hParse hF with
    ⟨header, hMem, hNumber, hName, -⟩
  have hOther :=
    header_of_name hParse hG hMem (by rw [hName, hNames])
  exact hNumbers (hNumber.symm.trans hOther.1)

/- A header with a body has a function of its types. -/
theorem function_of_header
    (hParse : Program.parse source = .ok p)
    (hMem : header ∈ p.globals.prototypes)
    (hBody : p.Implements header) :
    ∃ f ∈ p.functions,
      header.name = f.signature.name ∧
        header.paramTypes = f.signature.paramTypes := by
  rcases hBody with ⟨f, hF, hName⟩
  exact ⟨f, hF, (header_of_name hParse hF hMem hName).2⟩

/- What is written has a body for each header. -/
theorem implements_of_lower
    {listing : Listing}
    (hParse : Program.parse source = .ok p)
    (hLower : p.lower = .ok listing) :
    ∀ header ∈ p.globals.prototypes,
      p.Implements header := by
  intro header hMem
  refine (implemented_iff hParse hMem).mp ?_
  unfold Program.lower at hLower
  split at hLower
  · cases hLower
  · rename_i hNone
    simpa using List.find?_eq_none.mp hNone header hMem

/- The first header without a body is the fault. -/
theorem compile_of_unimplemented
    (hParse : Program.parse source = .ok p)
    (hBare : ∃ header ∈ p.globals.prototypes,
      ¬ p.Implements header) :
    ∃ before header after,
      p.globals.prototypes = before ++ header :: after ∧
        (∀ other ∈ before, p.Implements other) ∧
        ¬ p.Implements header ∧
        compile source =
          .error ⟨.unimplemented header.name.name,
            header.line⟩ := by
  have hMarked :
      ∀ header ∈ p.globals.prototypes,
        header.implemented = true ↔ p.Implements header :=
    fun _ => implemented_iff hParse
  rcases hBare with ⟨bare, hMem, hBare⟩
  have hSome : p.unimplemented?.isSome = true := by
    refine List.find?_isSome.mpr ⟨bare, hMem, ?_⟩
    have hUnmarked := mt (hMarked bare hMem).mp hBare
    simpa using hUnmarked
  rcases Option.isSome_iff_exists.mp hSome with
    ⟨header, hFirst⟩
  rcases List.find?_eq_some_iff_append.mp hFirst with
    ⟨hUnmarked, before, after, hHeaders, hBefore⟩
  refine ⟨before, header, after, hHeaders, ?_, ?_, ?_⟩
  · intro other hIn
    have hOther : other ∈ p.globals.prototypes := by
      rw [hHeaders]
      exact List.mem_append_left _ hIn
    exact (hMarked other hOther).mp
      (by simpa using hBefore other hIn)
  · intro hBody
    have hHeader : header ∈ p.globals.prototypes := by
      rw [hHeaders]
      simp
    rw [(hMarked header hHeader).mpr hBody] at hUnmarked
    cases hUnmarked
  · unfold compile
    rw [hParse]
    change (p.lower >>= _) = _
    unfold lower
    rw [hFirst]
    rfl

end

end Program

end Bracketry
