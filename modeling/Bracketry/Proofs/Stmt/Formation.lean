import Bracketry.Proofs.Expr.Formation
import Bracketry.Proofs.Stmt.Scoping

/-
  This file shows of what types variables can be.

  A variable is declared with a type that is written, and
  takes lengths that are left open from its first value.
  Nothing of type void is stored, and each return agrees
  with the function around it.
-/

namespace Bracketry

namespace Stmt

mutual

/- The values that are stored in whole variables. -/
def stored : Stmt → List Expr
| .sequence head tail => head.stored ++ allStored tail
| .ifThen _ body _ => body.stored
| .ifElse _ body other _ => body.stored ++ other.stored
| .whileLoop _ body _ => body.stored
| .doWhile body _ _ => body.stored
| .assign (.var _) value _ => [value]
| _ => []

/- The values that several statements store. -/
def allStored : List Stmt → List Expr
| [] => []
| st :: rest => st.stored ++ allStored rest

end

theorem stored_ofList
    (sts : List Stmt)
    (line : Nat) :
    (ofList sts line).stored = allStored sts := by
  cases sts with
  | nil => rfl
  | cons head tail => rw [ofList, stored, allStored]

/- The lengths of literals that are stored satisfy `L`. -/
def Fills
    (L : Nat → Prop)
    (values : List Expr) : Prop :=
  ∀ value ∈ values, ∀ n ∈ value.lengths, L n

instance
    (L : Nat → Prop)
    [DecidablePred L]
    (values : List Expr) :
    Decidable (Fills L values) := by
  unfold Fills
  infer_instance

theorem fills_append
    {L : Nat → Prop}
    {first second : List Expr} :
    Fills L (first ++ second) ↔ Fills L first ∧
      Fills L second :=
  List.forall_mem_append

end Stmt

/-
  The lengths in all that the function whose first frame is
  `base` can name satisfy `L`, and none of it is void.
-/
structure Context.Measured
    (L : Nat → Prop)
    (base : Nat)
    (name : String)
    (c : Context) : Prop where
  inside : c.Inside base name
  globals : c.scope.globals.Measured L
  held :
    ∀ x, c.scope.Holds base x →
      x.ty.Formed c.scope.globals L ∧ x.ty ≠ .void

namespace Context.Measured

variable {L : Nat → Prop} {base : Nat} {name : String}
variable {c : Context}

theorem scope
    (hMeasured : c.Measured L base name) :
    c.scope.Measured L where
  globals := hMeasured.globals
  seen := fun _ x hLookup =>
    (hMeasured.held x
      (hMeasured.inside.scope.holds_of_lookup hLookup)).1

theorem enter
    (hMeasured : c.Measured L base name) :
    c.enter.Measured L base name where
  inside :=
    ⟨hMeasured.inside.scope.enter,
      hMeasured.inside.function⟩
  globals := hMeasured.globals
  held := fun x hHolds =>
    hMeasured.held x (Scope.holds_of_enter hHolds)

theorem enterLoop
    (hMeasured : c.Measured L base name) :
    c.enterLoop.Measured L base name where
  inside :=
    ⟨hMeasured.inside.scope, hMeasured.inside.function⟩
  globals := hMeasured.globals
  held := hMeasured.held

theorem leaveLoop
    (hMeasured : c.Measured L base name) :
    c.leaveLoop.Measured L base name where
  inside :=
    ⟨hMeasured.inside.scope, hMeasured.inside.function⟩
  globals := hMeasured.globals
  held := hMeasured.held

end Context.Measured

namespace Stmt

variable {L : Nat → Prop} {base : Nat} {name : String}

/- A variable has the lengths of its first value. -/
theorem Initial.formed
    {σ : Scope}
    {declared t : Ty}
    {value : Expr}
    (hInitial : Initial σ declared t value)
    (hMeasured : σ.Measured L)
    (hDeclared : declared.Spelled σ.globals)
    (hSolid : declared ≠ .void)
    (hEvery : ∀ n, Ty.LengthOk n → L n)
    (hLengths : ∀ n ∈ value.lengths, L n) :
    t.Formed σ.globals L ∧ t ≠ .void := by
  cases hInitial with
  | given hValue hAgree =>
      exact hDeclared.agree hSolid
        (hValue.formed hMeasured hLengths) hAgree
  | default hSpecified _ =>
      exact ⟨(hDeclared.positive hSpecified).weaken hEvery,
        hSolid⟩

mutual

/- Declared lengths satisfy `L`. -/
theorem Read.measured
    (hEvery : ∀ n, Ty.LengthOk n → L n) :
    ∀ {c : Context} {st : Stmt} {c' : Context},
      st.Read c c' → c.Measured L base name →
        Fills L st.stored →
      c'.Measured L base name
| c, _, _, .declaration hDeclared hVoid hInitial hFunction
    hDeclare, hMeasured, hFills => by
    rw [stored] at hFills
    have hTypes := hInitial.formed hMeasured.scope hDeclared
      hVoid hEvery (hFills _ List.mem_cons_self)
    have hInside :=
      (inside_of_declare hMeasured.inside hFunction rfl
        hDeclare).1
    have hGlobals := Scope.globals_of_declare hDeclare
    refine ⟨hInside, ?_, ?_⟩
    · rw [hGlobals]
      exact hMeasured.globals
    · intro x hHolds
      rw [hGlobals]
      rcases Scope.holds_of_declare hDeclare hHolds with
        rfl | hOld
      · exact hTypes
      · exact hMeasured.held x hOld
| _, _, _, .assignment _ _ _, hMeasured, _ => hMeasured
| _, _, _, .evaluation _ _, hMeasured, _ => hMeasured
| _, _, _, .returnNothing _ _, hMeasured, _ => hMeasured
| _, _, _, .returnValue _ _ _ _, hMeasured, _ => hMeasured
| _, _, _, .breakLoop _, hMeasured, _ => hMeasured
| _, _, _, .empty, hMeasured, _ => hMeasured
| _, _, _, .block hAll, hMeasured, hFills => by
    rw [stored_ofList] at hFills
    have hLast :=
      hAll.measured hEvery hMeasured.enter hFills
    have hInside :=
      hMeasured.inside.scope.leave hLast.inside.scope
      (.block hAll.extends)
    exact ⟨⟨hInside, hLast.inside.function⟩, hLast.globals,
      hLast.held⟩
| _, _, _, .ifThen _ _ hBody, hMeasured, hFills => by
    rw [stored] at hFills
    exact hBody.measured hEvery hMeasured hFills
| _, _, _, .ifElse _ _ hBody hOther, hMeasured, hFills => by
    rw [stored] at hFills
    rcases fills_append.mp hFills with ⟨hFirst, hSecond⟩
    exact hOther.measured hEvery
      (hBody.measured hEvery hMeasured hFirst) hSecond
| _, _, _, .whileLoop _ _ hBody, hMeasured, hFills => by
    rw [stored] at hFills
    exact (hBody.measured hEvery hMeasured.enterLoop
      hFills).leaveLoop
| _, _, _, .doWhile hBody _ _, hMeasured, hFills => by
    rw [stored] at hFills
    exact (hBody.measured hEvery hMeasured.enterLoop
      hFills).leaveLoop

theorem ReadAll.measured
    (hEvery : ∀ n, Ty.LengthOk n → L n) :
    ∀ {c : Context} {sts : List Stmt} {c' : Context},
      ReadAll c sts c' → c.Measured L base name →
      Fills L (allStored sts) → c'.Measured L base name
| _, _, _, .nil, hMeasured, _ => hMeasured
| _, _, _, .cons hFirst hRest, hMeasured, hFills => by
    rw [allStored] at hFills
    rcases fills_append.mp hFills with ⟨hOne, hOthers⟩
    exact hRest.measured hEvery
      (hFirst.measured hEvery hMeasured hOne) hOthers

end

end Stmt

namespace Stmt

mutual

/-
  No void is read, stored or handed over, and what is
  returned is of type `result`.
-/
def Solid (result : Ty) : Stmt → Prop
| .empty _ => True
| .sequence head tail =>
    head.Solid result ∧ AllSolid result tail
| .ifThen condition body _ =>
    condition.Solid ∧ body.Solid result
| .ifElse condition body other _ =>
    condition.Solid ∧ body.Solid result ∧ other.Solid result
| .whileLoop condition body _ =>
    condition.Solid ∧ body.Solid result
| .doWhile body condition _ =>
    condition.Solid ∧ body.Solid result
| .assign target value _ => target.Solid ∧ value.Solid
| .ret none _ _ => result = .void
| .ret (some value) t _ =>
    value.Solid ∧ t = result ∧ t ≠ .void
| .breakLoop _ => True
| .evaluate call _ => call.Solid

/- What holds of each of several statements. -/
def AllSolid (result : Ty) : List Stmt → Prop
| [] => True
| st :: rest => st.Solid result ∧ AllSolid result rest

end

theorem solid_ofList
    {result : Ty}
    {sts : List Stmt}
    (hAll : AllSolid result sts)
    (line : Nat) :
    (ofList sts line).Solid result := by
  cases sts with
  | nil => trivial
  | cons head tail =>
      rw [ofList, Solid]
      exact hAll

end Stmt

/-
  Nothing that can be named at a point of a function is
  void, except for what functions return.
-/
structure Context.Solid
    (base : Nat)
    (name : String)
    (result : Ty)
    (c : Context) : Prop where
  measured : c.Measured (fun _ => True) base name
  globals : c.scope.globals.Solid
  function : c.function = some ⟨name, result⟩

namespace Context.Solid

variable {base : Nat} {name : String} {result : Ty}
variable {c : Context}

theorem scope
    (hSolid : c.Solid base name result) :
    c.scope.Solid (fun _ => True) where
  globals := hSolid.globals
  measured := hSolid.measured.scope
  seen := fun _ x hLookup =>
    (hSolid.measured.held x
      (hSolid.measured.inside.scope.holds_of_lookup
        hLookup)).2

theorem enter
    (hSolid : c.Solid base name result) :
    c.enter.Solid base name result :=
  ⟨hSolid.measured.enter, hSolid.globals, hSolid.function⟩

theorem enterLoop
    (hSolid : c.Solid base name result) :
    c.enterLoop.Solid base name result :=
  ⟨hSolid.measured.enterLoop, hSolid.globals,
    hSolid.function⟩

/- Statements leave functions and records as they are. -/
theorem read
    {c' : Context}
    {st : Stmt}
    (hSolid : c.Solid base name result)
    (hRead : st.Read c c') :
    c'.Solid base name result where
  measured :=
    hRead.measured (fun _ _ => trivial) hSolid.measured
    fun _ _ _ _ => trivial
  globals := by
    rw [hRead.kept.globals]
    exact hSolid.globals
  function := hRead.kept.function.trans hSolid.function

end Context.Solid

namespace Stmt

variable {base : Nat} {name : String} {result : Ty}

theorem Initial.solid
    {σ : Scope}
    {L : Nat → Prop}
    {declared t : Ty}
    {value : Expr}
    (hInitial : Initial σ declared t value)
    (hSolid : σ.Solid L) :
    value.Solid := by
  cases hInitial with
  | given hValue _ => exact hValue.solid hSolid
  | default _ hOk => exact Expr.solid_initial hOk

mutual

/- No void is stored, and returns are of the right type. -/
theorem Read.solid :
    ∀ {c : Context} {st : Stmt} {c' : Context},
      st.Read c c' → c.Solid base name result →
        st.Solid result
| _, _, _, .declaration hDeclared hVoid hInitial _ _,
    hSolid => by
    rw [Stmt.Solid, Place.Solid]
    have hTypes :=
      hInitial.formed hSolid.measured.scope hDeclared hVoid
      (fun _ _ => trivial) (fun _ _ => trivial)
    exact ⟨hTypes.2, hInitial.solid hSolid.scope⟩
| _, _, _, .assignment hTarget hValue _, hSolid =>
    ⟨hTarget.solid hSolid.scope, hValue.solid hSolid.scope⟩
| _, _, _, .evaluation hCall _, hSolid =>
    hCall.solid hSolid.scope
| _, _, _, .returnNothing hFunction hVoid, hSolid => by
    rw [hSolid.function] at hFunction
    cases hFunction
    exact hVoid
| _, _, _, .returnValue hFunction hVoid hValue _,
    hSolid => by
    rw [hSolid.function] at hFunction
    cases hFunction
    exact ⟨hValue.solid hSolid.scope, rfl, hVoid⟩
| _, _, _, .breakLoop _, _ => trivial
| _, _, _, .empty, _ => trivial
| _, _, _, .block hAll, hSolid =>
    solid_ofList (hAll.solid hSolid.enter) _
| _, _, _, .ifThen hCondition _ hBody, hSolid =>
    ⟨hCondition.solid hSolid.scope, hBody.solid hSolid⟩
| _, _, _, .ifElse hCondition _ hBody hOther, hSolid =>
    ⟨hCondition.solid hSolid.scope, hBody.solid hSolid,
      hOther.solid (hSolid.read hBody)⟩
| _, _, _, .whileLoop hCondition _ hBody, hSolid =>
    ⟨hCondition.solid hSolid.scope,
      hBody.solid hSolid.enterLoop⟩
| _, _, _, .doWhile hBody hCondition _, hSolid =>
    ⟨hCondition.solid (hSolid.enterLoop.read hBody).scope,
      hBody.solid hSolid.enterLoop⟩

theorem ReadAll.solid :
    ∀ {c : Context} {sts : List Stmt} {c' : Context},
      ReadAll c sts c' → c.Solid base name result →
      AllSolid result sts
| _, _, _, .nil, _ => trivial
| _, _, _, .cons hFirst hRest, hSolid =>
    ⟨hFirst.solid hSolid, hRest.solid (hSolid.read hFirst)⟩

end

end Stmt

end Bracketry
