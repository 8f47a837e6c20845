import Bracketry.Proofs.Expr.Consistency
import Bracketry.Proofs.Program.Closure
import Bracketry.Proofs.Program.Completeness

/-
  This file shows that a compiled program is consistent in
  its types, if none of its members is void and its
  variables have all their lengths.

  Registers are kept apart by what stands behind the last
  dot of their names: a number, "arg" or "in".

  Main declarations:
    * `FunctionDef.setting`
    * `FunctionDef.consistent_of_lower`
    * `Program.types_consistent`
-/

namespace Bracketry

section

/- A statement of a function, of the variables of that. -/
structure Setting.Runs
    (s : Setting)
    (st : Stmt) : Prop where
  typed : st.WellTyped
  solid : st.Solid s.result
  vars : st.variables ⊆ s.vars

theorem Setting.runs_all
    {s : Setting}
    {sts : List Stmt}
    (hTyped : ∀ st ∈ sts, st.WellTyped)
    (hSolid : Stmt.AllSolid s.result sts)
    (hVars : Stmt.allVariables sts ⊆ s.vars) :
    ∀ st ∈ sts, s.Runs st := by
  induction sts with
  | nil => exact List.forall_mem_nil _
  | cons st rest ih =>
      rcases List.forall_mem_cons.mp hTyped with
        ⟨hFirst, hRest⟩
      rw [Stmt.AllSolid] at hSolid
      rw [Stmt.allVariables, List.append_subset] at hVars
      exact List.forall_mem_cons.mpr
        ⟨⟨hFirst, hSolid.1, hVars.1⟩,
          ih hRest hSolid.2 hVars.2⟩

open Build (progress_coversAll)

/- Each value is stored and handed back at its type. -/
theorem Build.consistency_coversAll
    (s : Setting) :
    (consistency s).CoversAll s.Reaches s.Reads Expr.Fits
      s.Runs where
  toCovers := consistency_covers s
  sequence := by
    rintro head tail ⟨hTyped, hSolid, hVars⟩
    rw [Stmt.variables, List.append_subset] at hVars
    rcases progress_coversAll.sequence hTyped with
      ⟨hHead, hTail⟩
    exact ⟨⟨hHead, hSolid.1, hVars.1⟩,
      Setting.runs_all hTail hSolid.2 hVars.2⟩
  ifThen := by
    rintro condition body line ⟨hTyped, hSolid, hVars⟩
    rw [Stmt.variables, List.append_subset] at hVars
    rcases progress_coversAll.ifThen hTyped with
      ⟨hFirst, hAsks, hBody⟩
    exact ⟨⟨hFirst, hSolid.1, hVars.1⟩, hAsks, hBody,
      hSolid.2, hVars.2⟩
  ifElse := by
    rintro condition body other line ⟨hTyped, hSolid, hVars⟩
    rw [Stmt.variables, List.append_subset,
      List.append_subset] at hVars
    rcases progress_coversAll.ifElse hTyped with
      ⟨hFirst, hAsks, hBody, hOther⟩
    exact ⟨⟨hFirst, hSolid.1, hVars.1.1⟩, hAsks,
      ⟨hBody, hSolid.2.1, hVars.1.2⟩, hOther,
        hSolid.2.2, hVars.2⟩
  whileLoop := by
    rintro condition body line ⟨hTyped, hSolid, hVars⟩
    rw [Stmt.variables, List.append_subset] at hVars
    rcases progress_coversAll.whileLoop hTyped with
      ⟨hFirst, hAsks, hBody⟩
    exact ⟨⟨hFirst, hSolid.1, hVars.1⟩, hAsks, hBody,
      hSolid.2, hVars.2⟩
  doWhile := by
    rintro body condition line ⟨hTyped, hSolid, hVars⟩
    rw [Stmt.variables, List.append_subset] at hVars
    rcases progress_coversAll.doWhile hTyped with
      ⟨hFirst, hAsks, hBody⟩
    exact ⟨⟨hFirst, hSolid.1, hVars.2⟩, hAsks, hBody,
      hSolid.2, hVars.1⟩
  assign := by
    rintro target value line ⟨hTyped, hSolid, hVars⟩
    rw [Stmt.variables, List.append_subset] at hVars
    rcases progress_coversAll.assign hTyped with
      ⟨hTarget, hValue, hAsks, -⟩
    refine ⟨⟨hTarget, hSolid.1, hVars.1⟩,
      ⟨hValue, hSolid.2, hVars.2⟩,
      hAsks, fun {Γ v address} hStored hAddress =>
        ⟨rfl, ?_⟩⟩
    have hType := hStored.resolve_left hSolid.1.ty_ne_void
    refine ⟨hType.ty_eq.symm ▸ hType, ?_⟩
    rw [hType.ty_eq]
    exact hAddress.resolve_left Ty.noConfusion
  ret := by
    rintro t line ⟨-, hSolid, -⟩ Γ
    exact ⟨rfl, hSolid⟩
  retValue := by
    rintro value t line ⟨hTyped, hSolid, hVars⟩
    rcases hSolid with ⟨hSolid, rfl, hVoid⟩
    rcases progress_coversAll.retValue hTyped with
      ⟨hValue, hAsks, -⟩
    exact ⟨⟨hValue, hSolid, hVars⟩, hAsks, fun hReturned =>
      ⟨rfl, hReturned.resolve_left hVoid, hVoid⟩⟩
  evaluate := by
    rintro call line ⟨hTyped, hSolid, hVars⟩
    rcases progress_coversAll.evaluate hTyped with
      ⟨hCall, hAsks⟩
    exact ⟨⟨hCall, hSolid, hVars⟩, hAsks⟩

end

namespace Identifier

open Value (register)

variable {x y : Identifier}

theorem text_incoming
    (x : Identifier) :
    x.incoming.text = "%" ++ x.name ++ "." ++ "in" := by
  rw [incoming, Value.text]
  exact (String.append_assoc : _ ++ "." ++ "in" = _).symm

theorem register_eq
    (n : Nat) :
    register n = "%t" ++ "." ++ toString n :=
  rfl

theorem number_ne_in :
    ∀ n : Nat, toString n ≠ "in" :=
  number_ne_word (c := 'i') (by decide) (by decide)

/- Arguments arrive in registers that tell their names. -/
theorem name_of_incoming
    (hEq : x.incoming.text = y.incoming.text) :
    x.name = y.name := by
  have hIn : '.' ∉ "in".toList := by decide
  rw [text_incoming, text_incoming] at hEq
  exact (String.append_right_inj _).mp
    (eq_of_dotted hIn hIn hEq).1

theorem incoming_ne_register
    (x : Identifier)
    (n : Nat) :
    x.incoming.text ≠ register n := by
  intro hEq
  rw [text_incoming, register_eq] at hEq
  have hLast :=
    (eq_of_dotted (by decide) (dot_not_mem_number n) hEq).2
  exact number_ne_in n hLast.symm

theorem incoming_ne_storage
    {function : String}
    (x : Identifier)
    (hBound : y.BoundIn function) :
    x.incoming.text ≠ y.storage := by
  intro hEq
  rw [text_incoming] at hEq
  rcases hBound with hArgument | ⟨k, hBlock⟩
  · rw [storage_of_argument hArgument] at hEq
    have hLast :=
      (eq_of_dotted (by decide) (by decide) hEq).2
    exact absurd hLast (by decide)
  · rw [storage_of_block hBlock] at hEq
    have hLast :=
      (eq_of_dotted (by decide) (dot_not_mem_number k)
        hEq).2
    exact number_ne_in k hLast.symm

/- The name of a slot has two dots or ends in "arg". -/
theorem storage_ne_register
    {function : String}
    (hBound : x.BoundIn function)
    (n : Nat) :
    x.storage ≠ register n := by
  intro hEq
  rw [register_eq] at hEq
  rcases hBound with hArgument | ⟨k, hBlock⟩
  · rw [storage_of_argument hArgument] at hEq
    have hLast :=
      (eq_of_dotted (by decide) (dot_not_mem_number n)
        hEq).2
    exact number_ne_arg n hLast.symm
  · rw [storage_of_block hBlock] at hEq
    have hFront :=
      (eq_of_dotted (dot_not_mem_number k)
        (dot_not_mem_number n) hEq).1
    have hDot : '.' ∈ "%t".toList := by
      rw [← hFront]
      simp
    exact absurd hDot (by decide)

end Identifier

------------------------------------------------------------
-- Functions
------------------------------------------------------------

namespace FunctionDef

open Build (consistency)

variable {final : Globals} {base : Nat}

/- What the code of a function is written for. -/
def setting (f : FunctionDef) : Setting where
  vars := f.signature.params ++ f.body.variables
  arriving := f.signature.arriving
  result := f.signature.returnType

variable {Γ : Typing} {f : FunctionDef}

theorem setting_distinct
    {c₁ c₂ : Context}
    {sts : List Stmt}
    {start : Nat}
    (hBegun : f.Begun final base c₁)
    (hBody : f.body = .ofList sts start)
    (hAll : Stmt.ReadAll c₁ sts c₂) :
    f.setting.Distinct := by
  have hLocal := (hAll.inside hBegun.inside).scope
  have hHolds := hBegun.holds hBody hAll
  constructor
  case slots =>
    exact fun x hFirst y hSecond =>
      hLocal.eq_of_storage (hHolds x hFirst)
        (hHolds y hSecond)
  case solid => exact hBegun.ne_void hBody hAll
  case temporaries =>
    exact fun x hMem =>
      Identifier.storage_ne_register
        (hLocal.boundIn (hHolds x hMem))
  case arguments =>
    have hNames :
        f.signature.params.Pairwise fun x y =>
          x.name ≠ y.name :=
      List.pairwise_map.mp hBegun.names
    rw [setting, Prototype.arriving, List.map_map]
    exact List.pairwise_map.mpr (hNames.imp
      fun hNe hEq => hNe (Identifier.name_of_incoming hEq))
  case arrived =>
    intro r hMem
    rcases List.mem_map.mp hMem with ⟨y, -, rfl⟩
    refine ⟨fun x hVar => ?_, y.incoming_ne_register⟩
    exact Identifier.incoming_ne_storage y
      (hLocal.boundIn (hHolds x hVar))

/- What falling off the end returns is of the right type. -/
theorem hasType_initial
    {t : Ty}
    (hSolid : t ≠ .void) :
    (Value.initial t).HasType Γ t := by
  unfold Value.initial
  split
  · exact .bool false
  · exact .float .zero
  · exact .int 0 trivial
  · exact .int 0 trivial
  · exact .zero hSolid

/- The code of a function is consistent. -/
theorem consistent_of_lower
    {b b' : Builder}
    {d : Definition}
    (hDistinct : f.setting.Distinct)
    (hTyped : f.body.WellTyped)
    (hSolid : f.body.Solid f.signature.returnType)
    (hOk : f.lower b = .ok d b') :
    d.Consistent := by
  rcases lower_eq_ok hOk with ⟨hWritten, rfl⟩
  rcases Builder.Typed.start (b := b.cleared) hDistinct
    rfl rfl with
    ⟨hStart, hRegisters⟩
  have hKnown : f.signature.arriving ⊆
      b.cleared.registers f.setting := by
    rw [hRegisters]
    exact fun _ => id
  have hArgument : ∀ x ∈ f.signature.params, ∀ Γ address,
      f.signature.arriving ⊆ Γ →
      (consistency f.setting).Is Γ (.pointer x.ty) address →
      (consistency f.setting).Legal Γ
        (.store x.incoming address) := by
    intro x hMem Γ address hSubset hAddress
    refine ⟨rfl, .named (hSubset ?_),
      hAddress.resolve_left Ty.noConfusion⟩
    exact List.mem_map.mpr ⟨x, hMem, rfl⟩
  have hParams :
      (consistency f.setting).Keeps f.signature.arriving
      (lowerParameters f.signature.params) :=
    lowerParameters_follows
      (fun x hMem => Build.consistency_slot
      (List.mem_append_left _ hMem)) hArgument
  have hBody := Stmt.lower_within
    (Build.consistency_coversAll f.setting)
    f.body ⟨hTyped, hSolid, List.subset_append_right _ _⟩
  have hEnd : ∀ Γ, (consistency f.setting).Keeps Γ
      (lowerEnd f.signature.returnType) :=
    lowerEnd_follows (fun hVoid _ => ⟨rfl, hVoid⟩)
      fun hSolid _ => ⟨rfl, hasType_initial hSolid, hSolid⟩
  have hSteps :=
    (consistency f.setting).bind hParams fun _ Γ _ _ =>
      lowerBody_follows hBody hEnd Γ (.inl trivial)
  rcases hSteps hStart hKnown hWritten with ⟨hGrows, -⟩
  exact ⟨hGrows.typed.unique, hGrows.typed.lines⟩

/- Where a body starts, nothing in sight is void. -/
theorem Begun.solid
    {c : Context}
    (hBegun : f.Begun final base c)
    (hMembers :
      ∀ r ∈ final.records, ∀ m ∈ r.members, m.2 ≠ .void) :
    c.Solid base f.signature.name.name
      f.signature.returnType where
  measured := hBegun.unmeasured
  globals :=
    { members := fun r hMem =>
        hMembers r (hBegun.kept.records r hMem)
      params := by
        intro q hMem
        rw [Prototype.paramTypes, List.forall_mem_map]
        exact fun x hParam =>
          (hBegun.formed.params q hMem x hParam).2 }
  function := hBegun.function

end FunctionDef

namespace Program

/-
  What is compiled is consistent in its types.  Parameters
  and variables are never void, and parameters and members
  have all their lengths, so that nothing has to be asked
  about those.
-/
theorem types_consistent
    {source output : String}
    {p : Program}
    (hParse : Program.parse source = .ok p)
    (hCompile : compile source = .ok output)
    (hMembers :
      ∀ r ∈ p.globals.records, ∀ m ∈ r.members, m.2 ≠ .void)
    (hSpecified :
      ∀ f ∈ p.functions, ∀ x ∈ f.body.variables,
        x.ty.IsFullySpecified) :
    ∃ listing,
      p.lower = .ok listing ∧ output = listing.text ∧
        ∀ d ∈ listing.definitions, d.Consistent := by
  rcases compile_eq_ok hCompile with
    ⟨p', listing, hRead, hLower, hText⟩
  cases hParse.symm.trans hRead
  rcases lower_eq_ok hLower with ⟨b, hAll⟩
  refine ⟨listing, hLower, hText, ?_⟩
  intro d hMem
  rcases FunctionDef.lower_of_mem hAll rfl d hMem with
    ⟨f, hFunction, b₁, b₂, -, hWritten⟩
  rcases begun_of_parse hParse f hFunction with
    ⟨base, c₁, sts, start, c₂, hBegun, hBody, hRest⟩
  have hTyped : f.body.WellTyped :=
    (accepted_of_parse hParse f hFunction).typed
      (hSpecified f hFunction)
  have hSolid : f.body.Solid f.signature.returnType := by
    rw [hBody]
    exact Stmt.solid_ofList
      (hRest.solid (hBegun.solid hMembers)) start
  exact FunctionDef.consistent_of_lower
    (FunctionDef.setting_distinct hBegun hBody hRest)
      hTyped hSolid
    hWritten

/- A literal, parts of a record, a call, and conversions. -/
def scaling : String :=
  "[struct P: float[2] a, char c] [int f: int n, P p] \x7b
float m[] = [1, 2.5]; p[a] = m; bool b = n > p[c] || !(n == 2);
while b p[a][n] = -[f: n / 2.5, p]; return p[a][0]; \x7d"

theorem scaling_consistent :
    ∃ p output,
      Program.parse scaling = .ok p ∧
        compile scaling = .ok output ∧
      (∀ r ∈ p.globals.records, ∀ m ∈ r.members,
        m.2 ≠ .void) ∧
      (∀ f ∈ p.functions, ∀ x ∈ f.body.variables,
        x.ty.IsFullySpecified) ∧
      (∃ f ∈ p.functions, f.body.variables ≠ []) ∧
      ∃ listing,
        p.lower = .ok listing ∧ output = listing.text ∧
          ∀ d ∈ listing.definitions, d.Consistent := by
  have hChecked :
      (Program.parse scaling).toOption.any (fun p =>
        p.globals.records.all
          (·.members.all (decide <| ·.2 ≠ .void)) &&
          p.functions.all (fun f =>
            f.body.variables.all
              (decide ·.ty.IsFullySpecified)) &&
          p.functions.any
            (decide <| ·.body.variables ≠ []) &&
          p.lower.toOption.any fun _ => true) =
        true := by
    decide +kernel
  rcases Step.except_any_eq_true.mp hChecked with
    ⟨p, hParse, hChecked⟩
  simp only [Bool.and_eq_true, List.all_eq_true,
    List.any_eq_true, decide_eq_true_eq,
      Step.except_any_eq_true] at hChecked
  rcases hChecked with
    ⟨⟨⟨hMembers, hSpecified⟩, hSome⟩, listing, hLower, -⟩
  have hCompile := compile_of_lower hParse hLower
  exact ⟨p, listing.text, hParse, hCompile, hMembers,
    hSpecified, hSome, types_consistent hParse hCompile
      hMembers hSpecified⟩

end Program

end Bracketry
