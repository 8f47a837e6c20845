import Bracketry.Proofs.Expr.Literal
import Mathlib.Data.List.Forall2

/-
  This file compares types by their shape: the lengths of
  the array levels, from the outermost inward, and the type
  of the innermost elements.

  Completing a declared type takes the lengths of the
  literal and keeps the innermost type of the declaration.
  The common type of two elements needs equal lengths and is
  a question of the innermost types alone.

  Main declarations:
    * `Ty.innermost` and `Ty.ofShape`
    * `Ty.unify_assoc` and `Ty.unify_self`
-/

namespace Bracketry

namespace Ty

variable {c u : Ty}

/- The lengths of the array levels, the outermost first. -/
def lengths : Ty → List Nat
| .array n t => n :: t.lengths
| _ => []

/- The type of the elements behind all array levels. -/
def innermost : Ty → Ty
| .array _ t => t.innermost
| t => t

/- Arrays of given lengths around a type. -/
def ofShape
    (lengths : List Nat)
    (t : Ty) : Ty :=
  lengths.foldr array t

variable {t a b : Ty}

theorem lengths_of_not_isArray
    (hScalar : ¬ t.IsArray) :
    t.lengths = [] := by
  cases t with
  | array n t => exact absurd trivial hScalar
  | _ => rfl

theorem innermost_of_not_isArray
    (hScalar : ¬ t.IsArray) :
    t.innermost = t := by
  cases t with
  | array n t => exact absurd trivial hScalar
  | _ => rfl

theorem innermost_not_isArray :
    ∀ t : Ty, ¬ t.innermost.IsArray
| .array _ t => innermost_not_isArray t
| .primitive _ => id
| .pointer _ => id
| .record _ _ _ => id

/- A type is made of its lengths and its innermost type. -/
theorem ofShape_lengths :
    ∀ t : Ty, ofShape t.lengths t.innermost = t
| .array n t => congrArg (array n) (ofShape_lengths t)
| .primitive _ => rfl
| .pointer _ => rfl
| .record _ _ _ => rfl

theorem lengths_ofShape
    (hScalar : ¬ t.IsArray)
    (ns : List Nat) :
    (ofShape ns t).lengths = ns := by
  induction ns with
  | nil => exact lengths_of_not_isArray hScalar
  | cons n ns ih => exact congrArg (n :: ·) ih

theorem innermost_ofShape
    (hScalar : ¬ t.IsArray)
    (ns : List Nat) :
    (ofShape ns t).innermost = t := by
  induction ns with
  | nil => exact innermost_of_not_isArray hScalar
  | cons n ns ih => exact ih

theorem eq_of_shape
    (hLengths : a.lengths = b.lengths)
    (hInnermost : a.innermost = b.innermost) :
    a = b := by
  rw [← ofShape_lengths a, hLengths, hInnermost,
    ofShape_lengths]

theorem isFullySpecified_iff :
    ∀ t : Ty, t.IsFullySpecified ↔ ∀ n ∈ t.lengths, 0 < n
| .array n t => by
    rw [IsFullySpecified, lengths, List.forall_mem_cons,
      isFullySpecified_iff t]
| .primitive _ => by simp [IsFullySpecified, lengths]
| .pointer _ => by simp [IsFullySpecified, lengths]
| .record _ _ _ => by simp [IsFullySpecified, lengths]

/-
  A literal completes a declared type whose lengths, where
  they are given, are its own, if its elements convert.
-/
theorem inferFrom_eq_some_iff
    {declared literal t : Ty} :
    declared.inferFrom literal = some t ↔
      List.Forall₂ (fun m n => m ≠ 0 → m = n)
          declared.lengths literal.lengths ∧
        literal.innermost.ConvertsTo declared.innermost ∧
        t = ofShape literal.lengths declared.innermost := by
  fun_induction inferFrom declared
    literal generalizing t with
  | case1 m declared n literal hLength ih =>
      have hTakes : m ≠ 0 → m = n := hLength.resolve_left
      simp only [Option.map_eq_some_iff, ih, lengths,
        innermost, List.forall₂_cons]
      constructor
      · rintro ⟨u, ⟨hLevels, hConverts, rfl⟩, rfl⟩
        exact ⟨⟨hTakes, hLevels⟩, hConverts, rfl⟩
      · rintro ⟨⟨-, hLevels⟩, hConverts, rfl⟩
        exact ⟨_, ⟨hLevels, hConverts, rfl⟩, rfl⟩
  | case2 m declared n literal hLength =>
      simp only [lengths, List.forall₂_cons, reduceCtorEq,
        false_iff]
      rintro ⟨⟨hTakes, -⟩, -⟩
      exact hLength (or_iff_not_imp_left.mpr hTakes)
  | case3 m declared literal hScalar =>
      simp [lengths, lengths_of_not_isArray
        (not_isArray hScalar)]
  | case4 declared n literal hScalar =>
      simp [lengths, lengths_of_not_isArray
        (not_isArray hScalar)]
  | case5 declared literal _ hDeclared hLiteral hConverts =>
      have hDeclared := not_isArray hDeclared
      have hLiteral := not_isArray hLiteral
      rw [lengths_of_not_isArray hDeclared,
        lengths_of_not_isArray hLiteral,
        innermost_of_not_isArray hDeclared,
          innermost_of_not_isArray hLiteral]
      simp [hConverts, ofShape, eq_comm]
  | case6 declared literal _ hDeclared hLiteral hConverts =>
      have hDeclared := not_isArray hDeclared
      have hLiteral := not_isArray hLiteral
      rw [innermost_of_not_isArray hDeclared,
        innermost_of_not_isArray hLiteral]
      simp [hConverts]

/- A literal of a type's own lengths keeps the type. -/
theorem inferFrom_of_lengths
    {t literal : Ty}
    (hLengths : t.lengths = literal.lengths)
    (hConverts : literal.innermost.ConvertsTo t.innermost) :
    t.inferFrom literal = some t := by
  refine inferFrom_eq_some_iff.mpr ⟨?_, hConverts, ?_⟩
  · rw [hLengths, List.forall₂_same]
    exact fun n _ _ => rfl
  · rw [← hLengths, ofShape_lengths]

/- Given lengths are the lengths of the literal. -/
theorem eq_of_forall₂_takes
    {ms ns : List Nat}
    (hGiven : ∀ m ∈ ms, 0 < m)
    (hLevels :
      List.Forall₂ (fun m n => m ≠ 0 → m = n) ms ns) :
    ms = ns := by
  induction hLevels with
  | nil => rfl
  | cons hTakes _ ih =>
      rcases List.forall_mem_cons.mp hGiven with
        ⟨hPositive, hRest⟩
      rw [hTakes (Nat.ne_of_gt hPositive), ih hRest]

/-
  A literal completes a declared type exactly if it has as
  many levels, has every length that is given, and its
  elements convert.  The result has the lengths of the
  literal and the innermost type of the declaration, is the
  declared type where that was complete, and is not changed
  by the literal again.
-/
theorem inferFrom_exact
    (declared literal : Ty) :
    ((∃ t, declared.inferFrom literal = some t) ↔
      declared.lengths.length = literal.lengths.length ∧
        (∀ m n,
          (m, n) ∈ declared.lengths.zip literal.lengths →
          m ≠ 0 → m = n) ∧
        literal.innermost.ConvertsTo declared.innermost) ∧
    ∀ t, declared.inferFrom literal = some t →
      t.lengths = literal.lengths ∧
        t.innermost = declared.innermost ∧
        (t.IsFullySpecified ↔ literal.IsFullySpecified) ∧
        (declared.IsFullySpecified → t = declared) ∧
        t.inferFrom literal = some t := by
  constructor
  · simp only [inferFrom_eq_some_iff, exists_and_left,
      exists_eq, and_true, List.forall₂_iff_zip, and_assoc]
  · intro t hInfer
    rcases inferFrom_eq_some_iff.mp hInfer with
      ⟨hLevels, hConverts, hShape⟩
    have hScalar := innermost_not_isArray declared
    have hLengths : t.lengths = literal.lengths := by
      rw [hShape, lengths_ofShape hScalar]
    have hInnermost : t.innermost = declared.innermost := by
      rw [hShape, innermost_ofShape hScalar]
    refine ⟨hLengths, hInnermost, ?_, ?_, ?_⟩
    · rw [isFullySpecified_iff, isFullySpecified_iff,
        hLengths]
    · intro hSpecified
      refine eq_of_shape ?_ hInnermost
      rw [isFullySpecified_iff] at hSpecified
      rw [hLengths, eq_of_forall₂_takes hSpecified hLevels]
    · exact inferFrom_of_lengths hLengths
        (hInnermost ▸ hConverts)

/- Rows of numbers; only their length is given. -/
theorem rows_inferred :
    (array 0 (array 3 .float)).inferFrom
        (array 2 (array 3 .int)) =
        some (array 2 (array 3 .float)) ∧
      (array 2 (array 3 Ty.float)).lengths = [2, 3] ∧
      (array 2 (array 3 Ty.float)).IsFullySpecified ∧
      (array 2 (array 3 .float)).inferFrom
        (array 2 (array 3 .int)) =
        some (array 2 (array 3 .float)) := by
  have hInfer :
      (array 0 (array 3 .float)).inferFrom
        (array 2 (array 3 .int)) =
        some (array 2 (array 3 .float)) := by
    decide
  rcases (inferFrom_exact _ _).2 _ hInfer with
    ⟨hLengths, -, hSpecified, -, hAgain⟩
  exact ⟨hInfer, hLengths, hSpecified.mpr (by decide),
    hAgain⟩

theorem promote_comm
    (a b : Ty) :
    a.promote b = b.promote a := by
  unfold promote
  simp only [and_comm, or_comm]

theorem promote_self
    (hNumeric : a.IsNumeric) :
    a.promote a = some a := by
  rcases (isNumeric_iff a).mp hNumeric with
    rfl | rfl | rfl <;> rfl

/- The greatest of three types is found from either end. -/
theorem promote_assoc
    (hFirst : a.promote b = some u)
    (hSecond : u.promote c = some t) :
    ∃ v, b.promote c = some v ∧ a.promote v = some t := by
  rcases promote_eq_some hFirst with ⟨hLeft, hMiddle, -⟩
  rcases promote_eq_some hSecond with ⟨-, hRight, -⟩
  rw [isNumeric_iff] at hLeft hMiddle hRight
  rcases hLeft with rfl | rfl | rfl <;>
    rcases hMiddle with rfl | rfl | rfl <;>
      rcases hRight with rfl | rfl | rfl <;>
        cases hFirst <;> exact ⟨_, rfl, hSecond⟩

------------------------------------------------------------
-- Common Types by Shape
------------------------------------------------------------

/- No two arrays are promoted, or the same. -/
theorem unify_eq_or
    (hScalar : ¬ (a.IsArray ∧ b.IsArray)) :
    a.unify b =
      (a.promote b).or
        (if a = b then some a else none) := by
  rw [unify]
  · cases promote a b <;> rfl
  · rintro m x n y rfl rfl
    exact hScalar ⟨trivial, trivial⟩

theorem unify_scalar_iff
    (hScalar : ¬ a.IsArray) :
    a.unify b = some t ↔ a.promote b = some t ∨
      (a = b ∧ b = t) := by
  rw [unify_eq_or fun hArrays => hScalar hArrays.1]
  cases hPromote : a.promote b with
  | some u =>
      constructor
      · exact .inl
      · rintro (hEq | ⟨rfl, rfl⟩)
        · exact hEq
        · rw [← hPromote,
            promote_self (promote_eq_some hPromote).1]
          rfl
  | none => simp +contextual

theorem scalar_of_unify
    (hScalar : ¬ a.IsArray)
    (hUnify : a.unify b = some t) :
    ¬ t.IsArray := by
  rcases (unify_scalar_iff hScalar).mp hUnify with
    hPromote | ⟨rfl, rfl⟩
  · exact (promote_eq_some hPromote).2.2.not_isArray
  · exact hScalar

/- An array has nothing in common with what is none. -/
theorem unify_eq_none
    (hMixed : ¬ (a.IsArray ↔ b.IsArray)) :
    a.unify b = none := by
  have hScalar : ¬ (a.IsArray ∧ b.IsArray) :=
    fun hArrays => hMixed (iff_of_true hArrays.1 hArrays.2)
  have hNe : a ≠ b := by
    rintro rfl
    exact hMixed Iff.rfl
  have hPromote : a.promote b = none := by
    rw [Option.eq_none_iff_forall_ne_some]
    intro t hPromote
    rcases promote_eq_some hPromote with ⟨hLeft, hRight, -⟩
    exact hMixed
      (iff_of_false hLeft.not_isArray hRight.not_isArray)
  rw [unify_eq_or hScalar, hPromote, if_neg hNe]
  rfl

/- Arrays of one shape have their innermost types. -/
theorem unify_ofShape
    (hLeft : ¬ a.IsArray)
    (hRight : ¬ b.IsArray)
    (ms ns : List Nat) :
    (ofShape ms a).unify (ofShape ns b) =
      if ms = ns then (a.unify b).map (ofShape ms) else
        none := by
  induction ms generalizing ns with
  | nil =>
      cases ns with
      | nil => exact Option.map_id'.symm
      | cons n ns =>
          rw [if_neg (List.cons_ne_nil n ns).symm]
          exact unify_eq_none fun hSame =>
            hLeft (hSame.mpr trivial)
  | cons m ms ih =>
      cases ns with
      | nil =>
          rw [if_neg (List.cons_ne_nil m ms)]
          exact unify_eq_none fun hSame =>
            hRight (hSame.mp trivial)
      | cons n ns =>
          change
            (if m = n then
              ((ofShape ms a).unify (ofShape ns b)).map
                (array m)
              else none) = _
          rw [ih]
          by_cases hFirst : m = n
          · by_cases hRest : ms = ns
            · rw [if_pos hFirst, if_pos hRest,
                if_pos (congrArg₂ List.cons hFirst hRest),
                  Option.map_map]
              rfl
            · rw [if_pos hFirst, if_neg hRest,
                if_neg fun hEq =>
                  hRest (List.cons.inj hEq).2]
              rfl
          · rw [if_neg hFirst, if_neg fun hEq =>
              hFirst (List.cons.inj hEq).1]

/-
  Two types have a common type if their lengths are the same
  and their innermost types have one.
-/
theorem unify_eq_some_iff :
    a.unify b = some t ↔
      a.lengths = b.lengths ∧ t.lengths = a.lengths ∧
        a.innermost.unify b.innermost =
          some t.innermost := by
  have hScalar := innermost_not_isArray a
  have hShapes :=
    unify_ofShape hScalar (innermost_not_isArray b)
      a.lengths b.lengths
  rw [ofShape_lengths, ofShape_lengths] at hShapes
  rw [hShapes, Option.ite_none_right_eq_some,
    Option.map_eq_some_iff]
  refine and_congr_right fun _ => ⟨?_, ?_⟩
  · rintro ⟨u, hUnify, rfl⟩
    have hInner := scalar_of_unify hScalar hUnify
    rw [lengths_ofShape hInner, innermost_ofShape hInner]
    exact ⟨rfl, hUnify⟩
  · rintro ⟨hLengths, hUnify⟩
    exact ⟨t.innermost, hUnify,
      hLengths ▸ ofShape_lengths t⟩

theorem unify_comm
    (a b : Ty) :
    a.unify b = b.unify a := by
  have hSwap :
      ∀ {a b t : Ty}, a.unify b = some t →
        b.unify a = some t := by
    intro a b t hUnify
    rcases unify_eq_some_iff.mp hUnify with
      ⟨hSame, hLengths, hInner⟩
    refine unify_eq_some_iff.mpr
      ⟨hSame.symm, hLengths.trans hSame, ?_⟩
    rw [unify_scalar_iff (innermost_not_isArray _)]
      at hInner ⊢
    rcases hInner with hPromote | ⟨hEq, hResult⟩
    · exact .inl (promote_comm _ _ ▸ hPromote)
    · exact .inr ⟨hEq.symm, hEq.trans hResult⟩
  exact Option.ext fun t => ⟨hSwap, hSwap⟩

theorem unify_self
    (a : Ty) :
    a.unify a = some a :=
  unify_eq_some_iff.mpr ⟨rfl, rfl,
    (unify_scalar_iff (innermost_not_isArray a)).mpr
      (.inr ⟨rfl, rfl⟩)⟩

/- Scalar types are unified from either end. -/
theorem unify_scalar_assoc
    (hLeft : ¬ a.IsArray)
    (hMiddle : ¬ b.IsArray)
    (hFirst : a.unify b = some u)
    (hSecond : u.unify c = some t) :
    ∃ v, b.unify c = some v ∧ a.unify v = some t := by
  rw [unify_scalar_iff (scalar_of_unify hLeft hFirst)]
    at hSecond
  rw [unify_scalar_iff hLeft] at hFirst
  simp only [unify_scalar_iff hLeft,
    unify_scalar_iff hMiddle]
  -- a type that is kept and is numeric is promoted with
  -- itself
  have hPromoted :
      ∀ {u}, a.promote b = some u → u.promote c = some t →
        ∃ v, (b.promote c = some v ∨ b = c ∧ c = v) ∧
          (a.promote v = some t ∨ a = v ∧ v = t) := by
    intro u hFirst hSecond
    rcases promote_assoc hFirst hSecond with
      ⟨v, hInner, hOuter⟩
    exact ⟨v, .inl hInner, .inl hOuter⟩
  rcases hFirst with hFirst | ⟨rfl, rfl⟩
  · rcases hSecond with hSecond | ⟨rfl, rfl⟩
    · exact hPromoted hFirst hSecond
    · exact hPromoted hFirst
        (promote_self (promote_eq_some hFirst).2.2)
  · rcases hSecond with hSecond | ⟨rfl, rfl⟩
    · exact hPromoted
        (promote_self (promote_eq_some hSecond).1) hSecond
    · exact ⟨a, .inr ⟨rfl, rfl⟩, .inr ⟨rfl, rfl⟩⟩

theorem unify_assoc
    (a b c : Ty) :
    (a.unify b).bind (·.unify c) =
      (b.unify c).bind (a.unify ·) := by
  have hTurn :
      ∀ {a b c u t : Ty}, a.unify b = some u →
        u.unify c = some t →
        ∃ v, b.unify c = some v ∧ a.unify v = some t := by
    intro a b c u t hFirst hSecond
    rcases unify_eq_some_iff.mp hFirst with
      ⟨hLeft, hLengths, hFirst⟩
    rcases unify_eq_some_iff.mp hSecond with
      ⟨hRight, hWhole, hSecond⟩
    have hScalar := innermost_not_isArray b
    rcases unify_scalar_assoc (innermost_not_isArray a)
      hScalar hFirst hSecond with ⟨v, hInner, hOuter⟩
    have hResult := scalar_of_unify hScalar hInner
    refine ⟨ofShape b.lengths v, ?_, ?_⟩
    · rw [unify_eq_some_iff, lengths_ofShape hResult,
        innermost_ofShape hResult]
      exact ⟨hLeft.symm.trans (hLengths.symm.trans hRight),
        rfl, hInner⟩
    · rw [unify_eq_some_iff, lengths_ofShape hResult,
        innermost_ofShape hResult]
      exact ⟨hLeft, hWhole.trans hLengths, hOuter⟩
  refine Option.ext fun t => ?_
  rw [Option.bind_eq_some_iff, Option.bind_eq_some_iff]
  constructor
  · rintro ⟨u, hFirst, hSecond⟩
    exact hTurn hFirst hSecond
  · rintro ⟨v, hInner, hOuter⟩
    rw [unify_comm] at hInner hOuter
    rcases hTurn hInner hOuter with ⟨u, hFirst, hSecond⟩
    exact ⟨u, unify_comm b a ▸ hFirst,
      unify_comm c u ▸ hSecond⟩

/- Each of two elements completes their common type. -/
theorem inferFrom_of_unify
    (hUnify : a.unify b = some t) :
    t.inferFrom a = some t := by
  rcases unify_eq_some_iff.mp hUnify with
    ⟨-, hLengths, hInner⟩
  refine inferFrom_of_lengths hLengths ?_
  rcases (unify_scalar_iff (innermost_not_isArray a)).mp
    hInner with
    hPromote | ⟨hEq, hResult⟩
  · rcases promote_eq_some hPromote with
      ⟨hNumeric, -, hCommon⟩
    exact .inr ⟨hNumeric, hCommon⟩
  · exact .inl (hEq.trans hResult)

end Ty

end Bracketry
