import Bracketry.Proofs.Program.Scoping
import Bracketry.Proofs.Stmt.Formation

/-
  This file shows which types in a program are complete.

  Those of parameters always are.  A member may be void, and
  the type of a result may lack a length.  A variable lacks
  one only if it is given a result that does or a literal
  without elements.
-/

namespace Bracketry

namespace Ty

variable {g : Globals} {t : Ty}

/- Neither void nor an array of void. -/
def IsComplete : Ty → Prop
| .primitive kind => kind ≠ .void
| .array n t => LengthOk n ∧ t.IsComplete
| _ => True

theorem Formed.isComplete
    (hFormed : t.Formed g LengthOk)
    (hSolid : t ≠ .void) :
    t.IsComplete := by
  induction hFormed with
  | primitive kind =>
      intro hVoid
      exact hSolid (congrArg Ty.primitive hVoid)
  | record _ => trivial
  | array hLength hVoid _ ih => exact ⟨hLength, ih hVoid⟩

/- A written type is void or complete up to lengths. -/
theorem Formed.void_or_isComplete
    (hFormed : t.Formed g LengthOk) :
    t = .void ∨ t.IsComplete := by
  by_cases hVoid : t = .void
  · exact .inl hVoid
  · exact .inr (hFormed.isComplete hVoid)

end Ty

namespace FunctionDef

variable {final : Globals} {base : Nat} {f : FunctionDef}
variable {c₁ c₂ : Context} {L : Nat → Prop}
variable {sts : List Stmt}

/- Where a body starts, only results can lack lengths. -/
theorem Begun.measured
    (hBegun : f.Begun final base c₁)
    (hEvery : ∀ n, Ty.LengthOk n → L n)
    (hReturns :
      ∀ q ∈ c₁.scope.globals.prototypes,
        q.returnType.Formed c₁.scope.globals L) :
    c₁.Measured L base f.signature.name.name where
  inside := hBegun.inside
  globals :=
    ⟨fun r hMem m hMember =>
      (hBegun.formed.members r hMem m hMember).weaken
        hEvery, hReturns⟩
  held := by
    intro x hHolds
    rcases hBegun.params x (hBegun.held x hHolds) with
      ⟨hFormed, hSolid⟩
    exact ⟨hFormed.weaken hEvery, hSolid⟩

/- Without lengths, nothing is asked of results. -/
theorem Begun.unmeasured
    (hBegun : f.Begun final base c₁) :
    c₁.Measured (fun _ => True) base
      f.signature.name.name :=
  hBegun.measured (fun _ _ => trivial) fun q hMem =>
    (hBegun.formed.returns q hMem).weaken fun _ _ => trivial

/- No variable of a function is void. -/
theorem Begun.ne_void
    {start : Nat}
    (hBegun : f.Begun final base c₁)
    (hBody : f.body = .ofList sts start)
    (hAll : Stmt.ReadAll c₁ sts c₂) :
    ∀ x ∈ f.signature.params ++ f.body.variables, x.ty ≠
      .void := by
  have hMeasured :=
    hAll.measured (fun _ _ => trivial) hBegun.unmeasured
      fun _ _ _ _ => trivial
  intro x hMem
  exact (hMeasured.held x
    (hBegun.holds hBody hAll x hMem)).2

theorem formed_of_begun
    {start : Nat}
    (hBegun : f.Begun final base c₁)
    (hBody : f.body = .ofList sts start)
    (hAll : Stmt.ReadAll c₁ sts c₂)
    (hEvery : ∀ n, Ty.LengthOk n → L n)
    (hReturns :
      ∀ q ∈ c₁.scope.globals.prototypes,
        q.returnType.Formed c₁.scope.globals L)
    (hFills : Stmt.Fills L f.body.stored) :
    ∀ x ∈ f.body.variables,
      x.ty.Formed c₁.scope.globals L ∧ x.ty ≠ .void := by
  rw [hBody, Stmt.stored_ofList] at hFills
  rw [hBody, Stmt.variables_ofList]
  have hMeasured :=
    hAll.measured hEvery (hBegun.measured hEvery hReturns)
      hFills
  intro x hMem
  rw [← hAll.kept.globals]
  exact hMeasured.held x (hAll.holds hBegun.inside x hMem)

/- Results keep their types to the end of the program. -/
theorem Begun.returns_positive
    (hBegun : f.Begun final base c₁)
    (hSpecified :
      ∀ q ∈ final.prototypes,
        q.returnType.IsFullySpecified) :
    ∀ q ∈ c₁.scope.globals.prototypes,
      q.returnType.Formed c₁.scope.globals Ty.LengthOk := by
  intro q hMem
  rcases hBegun.kept.prototypes q hMem with
    ⟨q', hMem', hName⟩
  have hLengths := hSpecified q' hMem'
  rw [Prototype.returnType, hName] at hLengths
  exact (hBegun.formed.returns q hMem).positive hLengths

end FunctionDef

namespace Program

/-
  In a program that is read, all types are complete, but for
  void members and for results without a length.  A variable
  is never void, and its type is complete if all results
  have their lengths and no literal that is stored is empty.
-/
theorem types_complete
    {text : String}
    {p : Program}
    (hParse : Program.parse text = .ok p) :
    (∀ r ∈ p.globals.records, ∀ m ∈ r.members,
      m.2 = .void ∨ m.2.IsComplete) ∧
    (∀ q ∈ p.globals.prototypes,
      (∀ x ∈ q.params, x.ty.IsComplete) ∧
      (q.returnType.IsFullySpecified →
        q.returnType = .void ∨ q.returnType.IsComplete)) ∧
    ∀ f ∈ p.functions,
      (∀ x ∈ f.signature.params, x.ty.IsComplete) ∧
      (f.signature.returnType.IsFullySpecified →
        f.signature.returnType = .void ∨
          f.signature.returnType.IsComplete) ∧
      (∀ x ∈ f.body.variables, x.ty ≠ .void) ∧
      ((∀ q ∈ p.globals.prototypes,
        q.returnType.IsFullySpecified) →
        Stmt.Fills Ty.LengthOk f.body.stored →
        ∀ x ∈ f.body.variables, x.ty.IsComplete) := by
  have hFormed : p.globals.Formed := by
    rcases read_of_parse hParse with ⟨c, hRead, hGlobals⟩
    rw [hGlobals]
    exact (hRead.globals .empty).2
  refine ⟨?_, ?_, ?_⟩
  · exact fun r hMem m hMember =>
      (hFormed.members r hMem m hMember).void_or_isComplete
  · intro q hMem
    refine ⟨fun x hParam => ?_, fun hSpecified => ?_⟩
    · rcases hFormed.params q hMem x hParam with
        ⟨hType, hSolid⟩
      exact hType.isComplete hSolid
    · exact ((hFormed.returns q hMem).positive
        hSpecified).void_or_isComplete
  · intro f hMem
    rcases begun_of_parse hParse f hMem with
      ⟨base, c₁, sts, start, c₂, hBegun, hBody, hAll⟩
    refine ⟨fun x hParam => ?_, fun hSpecified => ?_, ?_,
      ?_⟩
    · rcases hBegun.params x hParam with ⟨hType, hSolid⟩
      exact hType.isComplete hSolid
    · exact (hBegun.returns.positive
        hSpecified).void_or_isComplete
    · intro x hMem
      exact hBegun.ne_void hBody hAll x
        (List.mem_append_right _ hMem)
    · intro hSpecified hFills x hMem
      rcases FunctionDef.formed_of_begun hBegun hBody hAll
        (fun _ => id) (hBegun.returns_positive hSpecified)
          hFills x hMem with
        ⟨hType, hSolid⟩
      exact hType.isComplete hSolid

/- Lengths come from a result and two literals. -/
def labelled : String :=
  "[struct P: float[2] a] [char[3] tag];
[int main: P p] \x7b char s[] = \"abc\"; char t[] = tag;
int m[][] = [[1, 2], [3, 4]]; P q = p; return m[1][0]; \x7d"

theorem labelled_complete :
    ∃ p, Program.parse labelled = .ok p ∧
      (∀ q ∈ p.globals.prototypes,
        q.returnType.IsFullySpecified) ∧
      (∀ f ∈ p.functions,
        Stmt.Fills Ty.LengthOk f.body.stored) ∧
      (∃ f ∈ p.functions, f.body.variables ≠ []) ∧
      ∀ f ∈ p.functions, ∀ x ∈ f.body.variables,
        x.ty.IsComplete := by
  have hChecked :
      (Program.parse labelled).toOption.any (fun p =>
        p.globals.prototypes.all
          (decide ·.returnType.IsFullySpecified) &&
          p.functions.all
            (decide <|
              Stmt.Fills Ty.LengthOk ·.body.stored) &&
          p.functions.any
            (decide <| ·.body.variables ≠ [])) =
        true := by
    decide +kernel
  rcases Step.except_any_eq_true.mp hChecked with
    ⟨p, hParse, hChecked⟩
  simp only [Bool.and_eq_true, List.all_eq_true,
    List.any_eq_true, decide_eq_true_eq] at hChecked
  rcases hChecked with ⟨⟨hReturns, hFills⟩, hSome⟩
  refine ⟨p, hParse, hReturns, hFills, hSome,
    fun f hMem => ?_⟩
  rcases (types_complete hParse).2.2 f hMem with
    ⟨-, -, -, hComplete⟩
  exact hComplete hReturns (hFills f hMem)

/- Void, no length, and an empty literal. -/
def hollow : String :=
  "[struct S: void x] [int[] g]; [void f] \x7b char s[] = \"\"; \x7d"

theorem hollow_incomplete :
    ∃ p, Program.parse hollow = .ok p ∧
      (∃ r ∈ p.globals.records, ∃ m ∈ r.members,
        m.2 = .void) ∧
      (∃ q ∈ p.globals.prototypes,
        q.returnType = .array 0 .int) ∧
      ∃ f ∈ p.functions, ∃ x ∈ f.body.variables,
        x.ty = .array 0 .char := by
  have hChecked :
      (Program.parse hollow).toOption.any (fun p =>
        p.globals.records.any
          (·.members.any (decide <| ·.2 = .void)) &&
          p.globals.prototypes.any
            (decide <| ·.returnType = .array 0 .int) &&
          p.functions.any
            (·.body.variables.any
              (decide <| ·.ty = .array 0 .char))) =
        true := by
    decide +kernel
  rcases Step.except_any_eq_true.mp hChecked with
    ⟨p, hParse, hChecked⟩
  simp only [Bool.and_eq_true, List.any_eq_true,
    decide_eq_true_eq] at hChecked
  exact ⟨p, hParse, hChecked.1.1, hChecked.1.2, hChecked.2⟩

end Program

end Bracketry
