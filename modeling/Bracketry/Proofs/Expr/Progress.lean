import Bracketry.Proofs.Expr.Operand
import Bracketry.Proofs.Judgement.Stmt

/-
  This file shows that well-typed code can be written: no
  step of writing ends in a fault, whatever has been written
  before.

  Steps of writing leave the exits of the loops around as
  they are, so that a break has a loop to leave where it is
  written.

  Main declarations:
    * `Build.progress`
    * `Expr.lower_succeeds`
    * `Stmt.lower_succeeds`
-/

namespace Bracketry

section

/- There is a conversion between any two numeric types. -/
theorem Conversion.between?_of_ne
    {source target : Ty}
    (hSource : source.IsNumeric)
    (hTarget : target.IsNumeric)
    (hNe : source ≠ target) :
    ∃ how, between? source target = some how := by
  rcases (Ty.isNumeric_iff source).mp hSource with
    rfl | rfl | rfl <;>
      rcases (Ty.isNumeric_iff target).mp hTarget with
        rfl | rfl | rfl
  · exact absurd rfl hNe
  · exact ⟨.widen, by decide⟩
  · exact ⟨.intToFloat, by decide⟩
  · exact ⟨.narrow, by decide⟩
  · exact absurd rfl hNe
  · exact ⟨.intToFloat, by decide⟩
  · exact ⟨.floatToInt, by decide⟩
  · exact ⟨.floatToInt, by decide⟩
  · exact absurd rfl hNe

/- Only types keep a value from being converted. -/
theorem Ty.ConvertsTo.between?_ne_none
    {source target : Ty}
    (hConverts : source.ConvertsTo target)
    (hNe : source ≠ target) :
    Conversion.between? source target ≠ none := by
  rcases hConverts with hEq | ⟨hSource, hTarget⟩
  · exact absurd hEq hNe
  · rcases Conversion.between?_of_ne hSource hTarget
      hNe with ⟨how, hHow⟩
    rw [hHow]
    exact Option.some_ne_none how

namespace Build

variable {α : Type}

/- A step has a result in every state. -/
def Succeeds (x : Build α) : Prop :=
  ∀ b, ∃ a b', x b = .ok a b'

/- An operand is converted to what its type converts to. -/
theorem convertValue_succeeds
    {v : Value}
    {target : Ty}
    (hConverts : v.ty.ConvertsTo target)
    (line : Nat) :
    Succeeds (convertValue v target line) := by
  intro b
  unfold convertValue
  by_cases hSame : v.ty = target
  · simp only [hSame, if_true]
    exact ⟨v, b, rfl⟩
  · simp only [hSame, if_false]
    cases hHow : Conversion.between? v.ty target with
    | some how => exact ⟨_, _, define_eq _ _ b⟩
    | none =>
        exact absurd hHow (hConverts.between?_ne_none hSame)

end Build

/- Operands that may be compared have a common type. -/
theorem Lowering.comparedAs_eq_ok
    {left right : Ty}
    (hComparable :
      (left = .bool ∧ right = .bool) ∨
        (left.promote right).isSome)
    (line : Nat) :
    ∃ t, comparedAs left right line = .ok t ∧
      left.ConvertsTo t ∧ right.ConvertsTo t := by
  unfold comparedAs
  by_cases hBools : left = .bool ∧ right = .bool
  · rw [if_pos hBools]
    exact ⟨.bool, rfl, .inl hBools.1, .inl hBools.2⟩
  · rw [if_neg hBools]
    have hPromote := hComparable.resolve_left hBools
    rcases Option.isSome_iff_exists.mp hPromote with
      ⟨t, hSome⟩
    rw [hSome]
    rcases Ty.promote_eq_some hSome with
      ⟨hLeft, hRight, hCommon⟩
    exact ⟨t, rfl, .inr ⟨hLeft, hCommon⟩,
      .inr ⟨hRight, hCommon⟩⟩

namespace Build

/- A step has a result and stays in the given loops. -/
def SucceedsIn
    {α : Type}
    (exits : List Label)
    (Q : α → Prop)
    (x : Build α) : Prop :=
  ∀ b, b.loopExits = exits →
    ∃ a b', x b = .ok a b' ∧ b'.loopExits = exits ∧ Q a

theorem SucceedsIn.modify
    {exits : List Label}
    {f : Builder → Builder}
    (hKept : ∀ b, (f b).loopExits = b.loopExits) :
    SucceedsIn exits (fun _ => True)
      (modify f : Build PUnit) :=
  fun b hExits =>
    ⟨⟨⟩, f b, rfl, (hKept b).trans hExits, trivial⟩

/- What well-typed code is like: no step of it fails. -/
def progress : Judgement where
  Known := List Label
  Grows := (· = ·)
  MayFail := False
  Holds := fun exits Q => SucceedsIn exits (Q · exits)
  Is := fun _ t v => v.ty = t
  Legal := fun _ _ => True
  Defines := fun _ _ _ => True
  inside := List.cons
  Breaks := (· ≠ [])
  trans := Eq.trans
  weaken := fun _ => id
  int := fun _ _ => rfl
  float := fun _ => rfl
  bool := fun _ => rfl
  pure := fun hResult b hExits =>
    ⟨_, b, rfl, hExits, hResult _ rfl⟩
  throw := False.elim
  bind := by
    intro _ _ exits _ _ _ _ hFirst hSecond b hExits
    rcases hFirst b hExits with
      ⟨a, b₁, hOk, hExits₁, hResult⟩
    rcases hSecond a exits rfl hResult b₁ hExits₁ with
      ⟨c, b₂, hOk₂, hRest⟩
    exact ⟨c, b₂, Step.bind_eq_ok.mpr ⟨a, b₁, hOk, hOk₂⟩,
      hRest⟩
  getBind := fun hNext b hExits => hNext b b hExits
  label := fun b hExits =>
    ⟨_, b.reserve.2, rfl, hExits, trivial⟩
  place := fun l => .modify fun b =>
    Builder.loopExits_place b l
  jump := fun l => .modify fun b =>
    (Builder.Writes.jump b l).exits
  branch := fun onTrue onFalse _ =>
    .modify fun b =>
      (Builder.Writes.branch b _ onTrue onFalse).exits
  append := fun _ => .modify fun b =>
    (Builder.Writes.append b _).exits
  define := fun _ b hExits => ⟨_, _, define_eq _ _ b,
    (Builder.Writes.append b.number.2 _).exits.trans hExits,
      rfl⟩
  merge := fun _ _ => trivial
  insideLoop := by
    intro exits exit _ hBody b hExits
    rcases hBody { b with loopExits := exit :: b.loopExits }
      (congrArg (exit :: ·) hExits) with
        ⟨a, b₁, hOk, hExits₁, -⟩
    exact ⟨a, _, insideLoop_eq_ok.mpr ⟨b₁, hOk, rfl⟩,
      congrArg List.tail hExits₁, trivial⟩
  breaks := fun exit exits => List.cons_ne_nil exit exits
  breaking := fun hEq hLoop => hEq ▸ hLoop
  leave := by
    intro exits line hLoop b hExits
    cases exits with
    | nil => exact absurd rfl hLoop
    | cons exit rest =>
        have hBreak : Stmt.lowerBreak line b =
            Build.jump exit b := by
          rw [Stmt.lowerBreak, Step.get_bind, hExits]
        rw [hBreak]
        exact SucceedsIn.modify
          (fun b => (Builder.Writes.jump b exit).exits) b
            hExits

end Build

------------------------------------------------------------
-- Well-Typed Expressions
------------------------------------------------------------

/- A number is converted to numbers only. -/
theorem Ty.ConvertsTo.isNumeric
    {source target : Ty}
    (hConverts : source.ConvertsTo target)
    (hSource : source.IsNumeric) :
    target.IsNumeric := by
  rcases hConverts with rfl | hBoth
  · exact hSource
  · exact hBoth.2

theorem Expr.WellTyped.fits_bool
    {e : Expr}
    (hTyped : e.WellTyped)
    (hBool : e.ty = .bool) :
    e.Fits .bool :=
  Expr.fits_of_convertsTo hTyped (.inl hBool)

open Build (progress)

/- Each node has the type that its parts give it. -/
theorem Build.progress_covers :
    progress.Covers Place.WellTyped Expr.WellTyped
      Expr.Fits where
  slot := fun _ _ b hExits =>
    ⟨_, _, rfl, (Builder.Writes.allocate b _ _).exits.trans
      hExits, rfl⟩
  element := by
    intro parent index t hPlace
    rcases hPlace with ⟨hParent, hIndex, hIntegral, -⟩
    have hConverts : index.ty.ConvertsTo .int :=
      Ty.convertsTo_of_numeric hIntegral.isNumeric trivial
    exact ⟨hParent, hIndex,
      Expr.fits_of_convertsTo hIndex hConverts,
      fun _ _ => trivial⟩
  member := by
    intro parent position name t hPlace
    exact ⟨hPlace.1, fun _ => trivial⟩
  kept := fun _ _ _ _ => id
  converted := fun _ _ _ _ _ _ => trivial
  refused := by
    intro e u k v _ hLiteral hFits hTy hNe hNone
    change v.ty = e.ty at hTy
    rw [hTy] at hNe hNone
    exact ((Expr.fits_iff hLiteral).mp
      hFits).between?_ne_none hNe hNone
  int := by
    intro n t line hExpr
    have hNumeric : t.IsNumeric := by
      rcases hExpr with ⟨rfl, -⟩ | ⟨rfl, -⟩ <;> trivial
    refine ⟨fun _ => rfl, fun u hFits => .inr ?_⟩
    exact ((Expr.fits_iff id).mp hFits).isNumeric hNumeric
  float := fun _ u hFits =>
    .inr (((Expr.fits_iff id).mp hFits).isNumeric trivial)
  zero := fun _ _ => rfl
  array := by
    intro elements t line hExpr
    refine ⟨Expr.allWellTyped_iff.mp hExpr.1,
      fun u hFits => ?_⟩
    cases u with
    | array n w =>
        refine ⟨fun hNone =>
          absurd hNone (Option.some_ne_none w), ?_⟩
        rintro _ ⟨⟩
        exact ⟨Expr.allFit_iff.mp hFits.2,
          fun _ _ _ _ => rfl⟩
    | _ =>
        rw [Expr.Fits] at hFits
        · exact hFits.elim
        · simp
  read := by
    intro place line hExpr
    exact ⟨hExpr, fun _ => trivial⟩
  arithmetic := by
    intro op left right t line hExpr
    rcases hExpr with ⟨hLeft, hRight, hPromote⟩
    rcases Ty.promote_eq_some hPromote with
      ⟨hNumL, hNumR, hNum⟩
    exact ⟨hLeft, hRight,
      Expr.fits_of_convertsTo hLeft (.inr ⟨hNumL, hNum⟩),
      Expr.fits_of_convertsTo hRight (.inr ⟨hNumR, hNum⟩),
      fun _ _ => trivial⟩
  negate := by
    intro operand t line hExpr
    rcases hExpr with ⟨hOperand, rfl, -⟩
    exact ⟨hOperand,
      Expr.fits_of_convertsTo hOperand
        (Ty.convertsTo_self _),
      fun _ => trivial⟩
  call := by
    intro callee prototype args params t line hExpr
    have hArgs := Expr.allWellTyped_iff.mp hExpr.1
    have hFit := Expr.convertsTo_of_argumentsFit hExpr.2
    refine ⟨hArgs, fun pair hMem => ?_,
      fun _ => ⟨?_, fun _ => trivial⟩⟩
    · exact Expr.fits_of_convertsTo
        (hArgs _ (List.of_mem_zip hMem).1) (hFit pair hMem)
    · exact fun _ => ⟨trivial, fun _ => rfl⟩
  compare := by
    intro op left right line hExpr
    rcases hExpr with ⟨hLeft, hRight, hComparable⟩
    rcases Lowering.comparedAs_eq_ok
      (hComparable.imp_left And.right)
      line with ⟨t, hCommon, hConverts, hConverts'⟩
    refine ⟨hLeft, hRight, ?_, ?_⟩
    · intro fault hError
      cases hCommon.symm.trans hError
    · intro u hSome
      cases hCommon.symm.trans hSome
      exact ⟨Expr.fits_of_convertsTo hLeft hConverts,
        Expr.fits_of_convertsTo hRight hConverts',
          fun _ _ => trivial⟩
  and := by
    intro left right line hExpr
    rcases hExpr with ⟨hLeft, hRight, hBool, hBool'⟩
    exact ⟨hLeft, hRight, hLeft.fits_bool hBool,
      hRight.fits_bool hBool'⟩
  or := by
    intro left right line hExpr
    rcases hExpr with ⟨hLeft, hRight, hBool, hBool'⟩
    exact ⟨hLeft, hRight, hLeft.fits_bool hBool,
      hRight.fits_bool hBool'⟩
  not := by
    intro operand line hExpr
    exact ⟨hExpr.1, hExpr.1.fits_bool hExpr.2⟩

/-
  An expression of a type can be written in all its uses: as
  an operand, in each type it fits, and as a choice if it is
  of type bool.
-/
structure Lowering.Succeeds
    (lowering : Lowering)
    (fits : Ty → Prop)
    (t : Ty) : Prop where
  reduce : Build.Succeeds lowering.reduce
  convert : ∀ u, fits u →
    Build.Succeeds (lowering.convert u)
  branches :
    t = .bool →
      ∀ onTrue onFalse,
        Build.Succeeds (lowering.branches onTrue onFalse)

/- The code of a well-typed expression can be written. -/
theorem Expr.lower_succeeds
    (e : Expr)
    (hTyped : e.WellTyped) :
    e.lower.Succeeds e.Fits e.ty := by
  have hFollows :=
    Expr.lower_follows Build.progress_covers e hTyped
  have hOwn :=
    Expr.fits_of_convertsTo hTyped (Ty.convertsTo_self e.ty)
  constructor
  case reduce =>
    intro b
    rcases hFollows.reduce hOwn _ b rfl with ⟨v, b', hOk, -⟩
    exact ⟨v, b', hOk⟩
  case convert =>
    intro u hFits b
    rcases hFollows.convert _ u hFits b rfl with
      ⟨v, b', hOk, -⟩
    exact ⟨v, b', hOk⟩
  case branches =>
    intro hBool onTrue onFalse b
    rcases hFollows.branches (hTyped.fits_bool hBool) _
      onTrue onFalse b rfl with ⟨v, b', hOk, -⟩
    exact ⟨v, b', hOk⟩

end

namespace Stmt

mutual

/-
  Conditions are of type bool, and values can be converted
  to the type of what they are stored in or handed back as.
-/
def WellTyped : Stmt → Prop
| .empty _ => True
| .sequence head tail => head.WellTyped ∧ AllWellTyped tail
| .ifThen condition body _ =>
    condition.WellTyped ∧ condition.ty = .bool ∧
      body.WellTyped
| .ifElse condition body other _ =>
    condition.WellTyped ∧ condition.ty = .bool ∧
      body.WellTyped ∧ other.WellTyped
| .whileLoop condition body _ =>
    condition.WellTyped ∧ condition.ty = .bool ∧
      body.WellTyped
| .doWhile body condition _ =>
    condition.WellTyped ∧ condition.ty = .bool ∧
      body.WellTyped
| .assign target value _ =>
    target.WellTyped ∧ value.WellTyped ∧
      value.Fits target.ty
| .ret none _ _ => True
| .ret (some value) t _ =>
    value.WellTyped ∧ value.ty.ConvertsTo t
| .breakLoop _ => True
| .evaluate call _ => call.WellTyped

/- All of several statements are well typed. -/
def AllWellTyped : List Stmt → Prop
| [] => True
| st :: rest => st.WellTyped ∧ AllWellTyped rest

end

theorem allWellTyped_iff
    {sts : List Stmt} :
    AllWellTyped sts ↔ ∀ st ∈ sts, st.WellTyped := by
  induction sts with
  | nil => simp [AllWellTyped]
  | cons st rest ih => simp [AllWellTyped, ih]

end Stmt

open Build (progress)

/- Well-typed statements can be written. -/
theorem Build.progress_coversAll :
    progress.CoversAll Place.WellTyped Expr.WellTyped
      Expr.Fits Stmt.WellTyped where
  toCovers := Build.progress_covers
  sequence := by
    intro head tail hStmt
    exact ⟨hStmt.1, Stmt.allWellTyped_iff.mp hStmt.2⟩
  ifThen := by
    intro condition body line hStmt
    exact ⟨hStmt.1, hStmt.1.fits_bool hStmt.2.1, hStmt.2.2⟩
  ifElse := by
    intro condition body other line hStmt
    exact ⟨hStmt.1, hStmt.1.fits_bool hStmt.2.1, hStmt.2.2⟩
  whileLoop := by
    intro condition body line hStmt
    exact ⟨hStmt.1, hStmt.1.fits_bool hStmt.2.1, hStmt.2.2⟩
  doWhile := by
    intro body condition line hStmt
    exact ⟨hStmt.1, hStmt.1.fits_bool hStmt.2.1, hStmt.2.2⟩
  assign := by
    intro target value line hStmt
    exact ⟨hStmt.1, hStmt.2.1, hStmt.2.2,
      fun _ _ => trivial⟩
  ret := fun _ _ => trivial
  retValue := by
    intro value t line hStmt
    exact ⟨hStmt.1, Expr.fits_of_convertsTo hStmt.1 hStmt.2,
      fun _ => trivial⟩
  evaluate := by
    intro call line hStmt
    exact ⟨hStmt,
      Expr.fits_of_convertsTo hStmt (Ty.convertsTo_self _)⟩

end Bracketry
