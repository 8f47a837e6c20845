import Bracketry.Proofs.Expr.Progress
import Bracketry.Proofs.Expr.Formation

/-
  This file shows that the code of a well-typed expression
  is consistent in its types, if nothing of type void is
  read or handed over.

  An operand that an expression gives has the type of the
  expression, or the type that it is converted to, by the
  instruction that defines it.  One of type void is not
  used.

  Main declarations:
    * `Build.consistency` and `Setting.Reads`
    * `Build.consistency_covers`
-/

namespace Bracketry

/- What is not void fits nothing that is void. -/
theorem Expr.Fits.ne_void
    {e : Expr}
    {t : Ty}
    (hFits : e.Fits t)
    (hSolid : e.ty ≠ .void) :
    t ≠ .void := by
  rintro rfl
  by_cases hLiteral : e.IsArrayLiteral
  · cases e with
    | array elements u line => exact hFits
    | _ => exact hLiteral
  · rcases (Expr.fits_iff hLiteral).mp hFits with
      hEq | hNumeric
    · exact hSolid hEq
    · exact hNumeric.2

/- Different integral types differ in their size. -/
theorem Ty.apparentSize_lt
    {a b : Ty}
    (hFirst : a.IsIntegral)
    (hSecond : b.IsIntegral)
    (hNe : a ≠ b)
    (hNot : ¬ a.apparentSize < b.apparentSize) :
    b.apparentSize < a.apparentSize := by
  have hCases : ∀ t : Ty, t.IsIntegral → t = .char ∨
      t = .int := by
    intro t hIntegral
    rcases (Ty.isNumeric_iff t).mp hIntegral.isNumeric with
      rfl | rfl | rfl
    · exact .inl rfl
    · exact .inr rfl
    · exact absurd hIntegral id
  rcases hCases a hFirst with rfl | rfl <;>
    rcases hCases b hSecond with rfl | rfl
  · exact absurd rfl hNe
  · exact absurd (by decide) hNot
  · decide
  · exact absurd rfl hNe

/- The operation code is legal for its types. -/
theorem Conversion.isLegal_of_between?
    {source target : Ty}
    {how : Conversion}
    (hNe : source ≠ target)
    (hBetween : between? source target = some how) :
    how.IsLegal source target := by
  unfold between? at hBetween
  split at hBetween
  · rename_i hTypes
    cases hBetween
    exact ⟨hTypes.2, hTypes.1⟩
  · split at hBetween
    · rename_i hTypes
      cases hBetween
      exact ⟨hTypes.2, hTypes.1⟩
    · split at hBetween
      · rename_i hTypes
        split at hBetween
        · rename_i hLess
          cases hBetween
          exact ⟨hTypes.2, hTypes.1, hLess⟩
        · rename_i hLess
          cases hBetween
          refine ⟨hTypes.2, hTypes.1, ?_⟩
          exact Ty.apparentSize_lt hTypes.2 hTypes.1
            hNe hLess
      · cases hBetween

/- Only numbers are ordered; truth values can be equal. -/
theorem Lowering.class_of_comparedAs
    {left right t : Ty}
    {line : Nat}
    {op : Comparison}
    (hCommon : comparedAs left right line = .ok t)
    (hComparable :
      (op.IsEquality ∧ left = .bool ∧ right = .bool) ∨
        (left.promote right).isSome) :
    t.IsNumeric ∨ t = .bool ∧ op.IsEquality := by
  unfold comparedAs at hCommon
  split at hCommon
  · rename_i hBools
    cases hCommon
    rcases hComparable with hEquality | hSome
    · exact .inr ⟨rfl, hEquality.1⟩
    · rcases Option.isSome_iff_exists.mp hSome with
        ⟨u, hPromote⟩
      rw [hBools.1] at hPromote
      exact absurd (Ty.promote_eq_some hPromote).1 id
  · split at hCommon
    · rename_i u hPromote
      cases hCommon
      exact .inl (Ty.promote_eq_some hPromote).2.2
    · cases hCommon

------------------------------------------------------------
-- Consistency
------------------------------------------------------------

open Build (Judgement Types)
open Value (register)

/- In consistent code operands have their types. -/
def Build.consistency (s : Setting) : Judgement where
  Known := Typing
  Grows := (· ⊆ ·)
  MayFail := True
  Holds := fun Γ Q x => Types s Γ Q x
  Is := fun Γ t v => t = .void ∨ v.HasType Γ t
  Legal := fun Γ i => i.result? = none ∧ i.Typed Γ s.result
  Defines := fun Γ t i => ∀ n,
    (i n).result? = some (register n, t) ∧
      (i n).Typed Γ s.result
  inside := fun _ Γ => Γ
  Breaks := fun _ => True
  trans := List.Subset.trans
  weaken := fun hSubset => Or.imp_right (·.weaken hSubset)
  int := fun n hIntegral => .inr (.int n hIntegral)
  float := fun x => .inr (.float x)
  bool := fun x => .inr (.bool x)
  pure := .pure
  throw := fun _ => .throw
  bind := .bind
  getBind := .getBind
  label := by
    intro Γ
    exact Types.label
  place := .place
  jump := .jump
  branch := fun onTrue onFalse hCondition =>
    .branch (hCondition.resolve_left (by decide))
      onTrue onFalse
  append := fun hLegal => .append hLegal.1 hLegal.2
  define := fun hDefines =>
    (Types.define (fun n => (hDefines n).1) fun n =>
      (hDefines n).2).imp fun _ _ => .inr
  merge := fun _ _ _ => ⟨rfl, trivial⟩
  insideLoop := .insideLoop
  breaks := fun _ _ => trivial
  breaking := fun _ => id
  leave := by
    intro Γ line _
    refine Types.getBind fun b => ?_
    split
    · exact .jump _
    · exact .throw _

variable {s : Setting} {Γ : Typing} {v : Value}

/- Places and expressions of the variables of a function. -/
structure Setting.Reaches
    (s : Setting)
    (place : Place) : Prop where
  typed : place.WellTyped
  solid : place.Solid
  vars : place.variables ⊆ s.vars

structure Setting.Reads
    (s : Setting)
    (e : Expr) : Prop where
  typed : e.WellTyped
  solid : e.Solid
  vars : e.variables ⊆ s.vars

theorem Setting.reads_all
    {es : List Expr}
    (hTyped : ∀ e ∈ es, e.WellTyped)
    (hSolid : Expr.AllSolid es)
    (hVars : Expr.allVariables es ⊆ s.vars) :
    ∀ e ∈ es, s.Reads e := by
  induction es with
  | nil => exact List.forall_mem_nil _
  | cons e rest ih =>
      rcases List.forall_mem_cons.mp hTyped with
        ⟨hFirst, hRest⟩
      rw [Expr.AllSolid] at hSolid
      rw [Expr.allVariables, List.append_subset] at hVars
      exact List.forall_mem_cons.mpr
        ⟨⟨hFirst, hSolid.1, hVars.1⟩,
          ih hRest hSolid.2 hVars.2⟩

/- What is converted is not void, unless it is kept. -/
theorem Setting.Reads.hasType
    {e : Expr}
    {u : Ty}
    (hLiteral : ¬ e.IsArrayLiteral)
    (hFits : e.Fits u)
    (hIs : (Build.consistency s).Is Γ e.ty v)
    (hSolid : u ≠ .void) :
    v.HasType Γ e.ty := by
  refine hIs.resolve_left fun hVoid => ?_
  rcases (Expr.fits_iff hLiteral).mp hFits with
    hEq | hNumeric
  · exact hSolid (hEq.symm.trans hVoid)
  · rw [hVoid] at hNumeric
    exact hNumeric.1

/- The slot of a variable is known once it is allocated. -/
theorem Build.consistency_slot
    {x : Identifier}
    (hVar : x ∈ s.vars)
    (Γ : Typing) :
    (consistency s).Holds Γ
      (fun _ Γ' => (consistency s).Is Γ' (.pointer x.ty)
        (.named x.storage (.pointer x.ty)))
      (Build.allocate x.storage x.ty) := by
  intro b a b' hTyped hSubset hOk
  rcases Types.allocate hVar hTyped hSubset hOk with
    ⟨hGrows, hSlot⟩
  exact ⟨hGrows, .inr (.named hSlot)⟩

open Build (progress_covers)

/- Each instruction uses operands at their types. -/
theorem Build.consistency_covers
    (s : Setting) :
    (consistency s).Covers s.Reaches s.Reads Expr.Fits where
  slot := by
    rintro x ⟨-, -, hVars⟩
    exact consistency_slot (hVars List.mem_cons_self)
  element := by
    rintro parent index t ⟨hTyped, hSolid, hVars⟩
    rw [Place.variables, List.append_subset] at hVars
    rcases progress_covers.element hTyped with
      ⟨hParent, hIndex, hAsks, -⟩
    rcases hTyped.2.2.2 with ⟨n, hArray⟩
    refine ⟨⟨hParent, hSolid.1, hVars.1⟩,
      ⟨hIndex, hSolid.2.1, hVars.2⟩,
      hAsks, fun {Γ base position} hBase hPosition dest =>
        ?_⟩
    have hPart : parent.ty.selected? position = some t := by
      rw [hArray]
      rfl
    refine ⟨?_, hBase.resolve_left Ty.noConfusion,
      hPosition.resolve_left (by decide), hPart⟩
    rw [Instruction.result?, hPart]
    rfl
  member := by
    rintro parent position name t ⟨hTyped, hSolid, hVars⟩
    rcases hTyped with
      ⟨hParent, serial, record, members, hRecord, hMember⟩
    refine ⟨⟨hParent, hSolid.1, hVars⟩,
      fun {Γ base} hBase dest => ?_⟩
    have hPart :
        parent.ty.selected? (.int position .int) =
          some t := by
      rw [hRecord]
      change members[position]?.map Prod.snd = some t
      rw [hMember]
      rfl
    refine ⟨?_, hBase.resolve_left Ty.noConfusion,
      .int _ trivial, hPart⟩
    rw [Instruction.result?, hPart]
    rfl
  kept := by
    intro e u Γ v _ hLiteral hFits hIs hSame
    by_cases hVoid : u = .void
    · exact .inl hVoid
    · have hType :=
        Setting.Reads.hasType hLiteral hFits hIs hVoid
      rw [← hType.ty_eq, hSame] at hType
      exact .inr hType
  converted := by
    intro e u Γ v how _ hLiteral hFits hIs hNe hHow dest
    have hLegal := Conversion.isLegal_of_between? hNe hHow
    have hSolid : u ≠ .void := by
      rintro rfl
      cases how with
      | intToFloat => exact hLegal.2
      | floatToInt => exact hLegal.2
      | widen => exact hLegal.2.1
      | narrow => exact hLegal.2.1
    have hType :=
      Setting.Reads.hasType hLiteral hFits hIs hSolid
    rw [← hType.ty_eq] at hType
    exact ⟨rfl, hType, hNe, hLegal⟩
  refused := fun _ _ _ _ _ _ => trivial
  int := by
    rintro n t line ⟨hTyped, -, -⟩
    have hIntegral : t.IsIntegral := by
      rcases hTyped with ⟨rfl, -⟩ | ⟨rfl, -⟩ <;> trivial
    exact ⟨fun _ => .inr (.int n hIntegral),
      fun _ _ => .inl trivial⟩
  float := fun _ _ _ => .inl trivial
  zero := by
    rintro t line ⟨-, hSolid, -⟩ Γ
    exact .inr (.zero hSolid)
  array := by
    rintro elements t line ⟨hTyped, hSolid, hVars⟩
    rcases progress_covers.array hTyped with
      ⟨hElements, hAsks⟩
    refine ⟨Setting.reads_all hElements hSolid.1 hVars, ?_⟩
    intro u hFits
    refine ⟨fun _ => trivial, fun w hSome => ?_⟩
    have hEach := ((hAsks u hFits).2 w hSome).1
    refine ⟨hEach, fun Γ values hLength hValues => .inr ?_⟩
    cases u with
    | array n w' =>
        cases hSome
        rw [Expr.Fits] at hFits
        refine .array (hLength.trans hFits.1.symm)
          fun v hMem => ?_
        refine (hValues v hMem).resolve_left ?_
        rcases List.exists_mem_of_length_pos
          (hLength ▸ List.length_pos_of_mem hMem) with
            ⟨e, hIn⟩
        exact (hEach e hIn).ne_void (hSolid.2 e hIn)
    | _ => cases hSome
  read := by
    rintro place line ⟨hTyped, hSolid, hVars⟩
    exact ⟨⟨hTyped, hSolid, hVars⟩, fun hAddress _ =>
      ⟨rfl, hAddress.resolve_left Ty.noConfusion,
        hSolid.ty_ne_void⟩⟩
  arithmetic := by
    rintro op left right t line ⟨hTyped, hSolid, hVars⟩
    rw [Expr.variables, List.append_subset] at hVars
    rcases progress_covers.arithmetic hTyped with
      ⟨hLeft, hRight, hAsks, hAsks', -⟩
    have hNum := (Ty.promote_eq_some hTyped.2.2).2.2
    have hVoid := Ty.ne_void_of_isNumeric hNum
    exact ⟨⟨hLeft, hSolid.1, hVars.1⟩,
      ⟨hRight, hSolid.2, hVars.2⟩, hAsks,
      hAsks', fun hFirst hSecond _ => ⟨rfl, hNum,
        hFirst.resolve_left hVoid,
          hSecond.resolve_left hVoid⟩⟩
  negate := by
    rintro operand t line ⟨hTyped, hSolid, hVars⟩
    rcases progress_covers.negate hTyped with
      ⟨hOperand, hAsks, -⟩
    rcases hTyped with ⟨-, rfl, hNum⟩
    exact ⟨⟨hOperand, hSolid, hVars⟩, hAsks, fun hValue _ =>
      ⟨rfl, hNum,
        hValue.resolve_left (Ty.ne_void_of_isNumeric hNum)⟩⟩
  call := by
    rintro callee prototype args params t line
      ⟨hTyped, hSolid, hVars⟩
    rcases progress_covers.call hTyped with
      ⟨hArgs, hAsks, -⟩
    refine ⟨Setting.reads_all hArgs hSolid.1 hVars,
      hAsks, ?_⟩
    intro Γ values hValues
    have hOperands : ∀ v ∈ values, v.HasType Γ v.ty := by
      intro v hMem
      rcases Judgement.is_of_mem hValues v hMem with
        ⟨pair, hPair, hIs⟩
      have hParam := hSolid.2 _ (List.of_mem_zip hPair).2
      have hType := hIs.resolve_left hParam
      rwa [hType.ty_eq]
    refine ⟨fun hVoid =>
      ⟨⟨rfl, ?_, hOperands⟩, fun _ => .inl hVoid⟩,
      fun hVoid dest => ⟨rfl, ?_, hOperands⟩⟩
    · simp [hVoid]
    · simp [hVoid]
  compare := by
    rintro op left right line ⟨hTyped, hSolid, hVars⟩
    rw [Expr.variables, List.append_subset] at hVars
    rcases progress_covers.compare hTyped with
      ⟨hLeft, hRight, -, hAsks⟩
    refine ⟨⟨hLeft, hSolid.1, hVars.1⟩,
      ⟨hRight, hSolid.2, hVars.2⟩,
      fun _ _ => trivial, fun t hCommon => ?_⟩
    rcases hAsks t hCommon with ⟨hAsk, hAsk', -⟩
    have hClass :=
      Lowering.class_of_comparedAs hCommon hTyped.2.2
    have hVoid : t ≠ .void := by
      rintro rfl
      rcases hClass with hNumeric | hBool
      · exact hNumeric
      · cases hBool.1
    exact ⟨hAsk, hAsk',
      fun hFirst hSecond _ => ⟨rfl, hClass,
      hFirst.resolve_left hVoid,
        hSecond.resolve_left hVoid⟩⟩
  and := by
    rintro left right line ⟨hTyped, hSolid, hVars⟩
    rw [Expr.variables, List.append_subset] at hVars
    rcases progress_covers.and hTyped with
      ⟨hLeft, hRight, hAsks⟩
    exact ⟨⟨hLeft, hSolid.1, hVars.1⟩,
      ⟨hRight, hSolid.2, hVars.2⟩, hAsks⟩
  or := by
    rintro left right line ⟨hTyped, hSolid, hVars⟩
    rw [Expr.variables, List.append_subset] at hVars
    rcases progress_covers.or hTyped with
      ⟨hLeft, hRight, hAsks⟩
    exact ⟨⟨hLeft, hSolid.1, hVars.1⟩,
      ⟨hRight, hSolid.2, hVars.2⟩, hAsks⟩
  not := by
    rintro operand line ⟨hTyped, hSolid, hVars⟩
    rcases progress_covers.not hTyped with ⟨hOperand, hAsks⟩
    exact ⟨⟨hOperand, hSolid, hVars⟩, hAsks⟩

end Bracketry
