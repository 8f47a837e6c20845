import Bracketry.Proofs.Expr.Agreement
import Bracketry.Proofs.Expr.Soundness

/-
  This file shows that the code of an expression computes
  the value of the expression, converted to the type asked
  for.

  A literal becomes a value of another numeric type in two
  ways: it is folded to a constant before the program runs,
  or an instruction converts it.  Both give the same
  wherever the instruction has a result, except for negative
  characters.  These are folded to a float without their
  sign, but the instruction takes them as signed.

  Main declarations:
    * `Value.RunsAs` and `Value.Agrees`
    * `Expr.convert_folds`
    * `Expr.minus_one_differs`
-/

namespace Bracketry

section

variable {S : Type}

namespace Expr

open Evaluation

end Expr

/- Three scores, a position and a letter are in memory. -/
def Environment.scores : Environment Unit where
  memory _ slot :=
    if slot = "@scores" then
      .aggregate [.int 10, .int 7, .int (-9)]
    else if slot = "@last" then
      .char 2
    else
      .char 0xFF
  call _ t _ := return Datum.zero t
  arithmetic _ x _ := x
  negate x := x
  compare _ _ _ := false
  call_admits _ t _ _ := Ty.admits_zero t

namespace Expr

end Expr

end

variable {S : Type}

------------------------------------------------------------
-- Conversion at Run Time
------------------------------------------------------------

/-
  What the code that converts an operand computes.  Written
  from any open block on, it comes to its end, where the
  operand that it gives is the value `d`.
-/
def Value.RunsAs
    (E : Environment S)
    (v : Value)
    (target : Ty)
    (d : Datum) : Prop :=
  ∀ (line : Nat) (b : Builder), b.between = false →
    ∃ w b', Build.convertValue v target line b = .ok w b' ∧
      ∀ m : Machine Datum S, m.control = .line 0 →
        ∃ m', E.machine.Reaches (b.emitted b') m m' ∧
          m'.control = .line (b.emitted b').length ∧
          E.machine.operand m'.registers w = d

/-
  A folded operand is what the code computes, wherever that
  is defined.
-/
def Value.Agrees
    (E : Environment S)
    (v : Value)
    (target : Ty)
    (folded : Value) : Prop :=
  ∃ d, v.RunsAs E target d ∧
    (d ≠ .nothing → E.machine.constant folded = d)

/- The value of an operand, carried to another type. -/
def Environment.carried
    (E : Environment S)
    (v : Value)
    (target : Ty) : Datum :=
  if v.ty = target then
    E.machine.constant v
  else
    match Conversion.between? v.ty target with
    | some how =>
        convertedBits how target (E.machine.constant v)
    | none => E.machine.constant v

namespace Value

variable {v : Value} {E : Environment S}

/- The code carries the operand to the type asked for. -/
theorem runsAs_carried
    (E : Environment S)
    (target : Ty)
    (hBelow : ∀ bound, v.Below bound)
    (hSource : v.ty.IsNumeric)
    (hTarget : target.IsNumeric) :
    v.RunsAs E target (E.carried v target) := by
  intro line b hOpen
  have hYields : Build.Yields v.ty (pure v) :=
    .pure rfl hBelow
  rcases Build.convertValue_succeeds
      (Ty.convertsTo_of_numeric hSource hTarget) line b with
    ⟨w, b', hOk⟩
  refine ⟨w, b', hOk, ?_⟩
  intro m hStart
  have hComputes :=
    (Build.Computes.constant (I := E.machine)
      hBelow).convertValue hYields (.pure v) target line
  have hWrites : Builder.Writes [] b b' :=
    (Build.Writes.convertValue v target line).ok hOk
  rcases hComputes hOk hOpen with ⟨-, hPasses⟩
  have hControl :
      m.control = .line (b.here b.lines.size) := by
    rw [hStart, Builder.here_start]
  rcases hPasses hWrites.within
      (hWrites.distinct List.nodup_nil)
      (Nat.le_refl _) hControl with
    ⟨m', hTo, -, hDenotes⟩
  have hEnd := hTo.control
  rw [Builder.here_end] at hEnd
  refine ⟨m', hTo.reaches, hEnd, hDenotes.trans ?_⟩
  change (E.machine.converted v.ty target
    (E.machine.constant v) m.world).1 = E.carried v target
  unfold Interpretation.converted Environment.carried
  by_cases hSame : v.ty = target
  · rw [if_pos hSame, if_pos hSame]
    rfl
  · rw [if_neg hSame, if_neg hSame]
    cases Conversion.between? v.ty target with
    | some how => rfl
    | none => rfl

/- The machine stops in one state. -/
theorem RunsAs.unique
    [Nonempty S]
    {target : Ty}
    {d d' : Datum}
    (hFirst : v.RunsAs E target d)
    (hSecond : v.RunsAs E target d') :
    d = d' := by
  rcases hFirst 0 .empty rfl with ⟨w, b', hOk, hRuns⟩
  rcases hSecond 0 .empty rfl with ⟨w', b'', hOk', hRuns'⟩
  rw [hOk] at hOk'
  cases hOk'
  rcases ‹Nonempty S› with ⟨s⟩
  let start : Machine Datum S :=
    ⟨.line 0, none, none, fun _ => .nothing, s⟩
  rcases hRuns start rfl with ⟨m, hReaches, hEnd, hValue⟩
  rcases hRuns' start rfl with
    ⟨m', hReaches', hEnd', hValue'⟩
  have hSame :=
    Interpretation.eq_of_halted hReaches hReaches'
    (Interpretation.halted_of_end hEnd)
    (Interpretation.halted_of_end hEnd')
  rw [← hValue, ← hValue', hSame]

/- Where a conversion has no value, no code has one. -/
theorem convertedBits_of_error
    {source target : Ty}
    {how : Conversion}
    {a : Datum}
    {reason : Undefined}
    (hTarget : target.IsNumeric)
    (hNe : source ≠ target)
    (hHow : Conversion.between? source target = some how)
    (hSource : source.IsNumeric)
    (hOperand : source.Admits a)
    (hError : a.converted source target = .error reason) :
    Environment.convertedBits how target a = .nothing := by
  have hRange :
      ∀ {result : Option Datum},
        Datum.inRange result = .error reason →
          result.getD .nothing = .nothing := by
    intro result hNone
    cases result with
    | some d => cases hNone
    | none => rfl
  unfold Datum.converted at hError
  rw [if_neg hNe] at hError
  rcases Environment.admits_numeric hSource hOperand with
    ⟨rfl, x, rfl⟩ | ⟨rfl, x, rfl⟩ | ⟨rfl, x, rfl⟩ <;>
  rcases (Ty.isNumeric_iff target).mp hTarget with
    rfl | rfl | rfl
  · exact absurd rfl hNe
  · cases hError
  · cases hError
  · cases hError
  · exact absurd rfl hNe
  · cases hError
  · cases hHow
    exact hRange hError
  · cases hHow
    exact hRange hError
  · exact absurd rfl hNe

/- A constant that is the converted value agrees. -/
theorem agrees_of_settled
    {v folded : Value}
    {target : Ty}
    (hBelow : ∀ bound, v.Below bound)
    (hSource : v.ty.IsNumeric)
    (hTarget : target.IsNumeric)
    (hAdmits : v.ty.Admits (E.machine.constant v))
    (hFolded :
      Settled (fun d => E.machine.constant folded = d ∧
        target.Admits d)
          ((E.machine.constant v).converted v.ty target)) :
    v.Agrees E target folded := by
  refine ⟨_, runsAs_carried E target hBelow hSource hTarget,
    ?_⟩
  intro hDefined
  unfold Environment.carried at hDefined ⊢
  by_cases hSame : v.ty = target
  · rw [← hSame, Datum.converted_self] at hFolded
    rw [if_pos hSame]
    exact hFolded.1
  · rw [if_neg hSame] at hDefined ⊢
    rcases Conversion.between?_of_ne hSource hTarget
      hSame with
      ⟨how, hHow⟩
    simp only [hHow] at hDefined ⊢
    have hBits :=
      Environment.converted_settled hTarget hSame hHow
        hSource hAdmits
    cases hValue : (E.machine.constant v).converted v.ty
      target with
    | ok d =>
        rw [hValue] at hFolded hBits
        exact hFolded.1.trans hBits.1.symm
    | error reason =>
        exact absurd
          (convertedBits_of_error hTarget hSame hHow hSource
          hAdmits hValue) hDefined

end Value

namespace Double

/- A quotient keeps the sign that it is given. -/
theorem negative_ofRatio
    (negative : Bool)
    (numerator denominator : Nat) :
    (ofRatio negative numerator denominator).negative =
      negative := by
  have hBits :
      ∀ magnitude ≤ 2047 * Nat.pow 2 52,
        Double.negative ⟨UInt64.ofNat
          ((if negative then Nat.pow 2 63 else 0) +
            magnitude)⟩ = negative := by
    intro magnitude hLe
    have hSign : Nat.pow 2 63 = 9223372036854775808 := rfl
    have hFull : 2047 * Nat.pow 2 52 =
      9218868437227405312 := rfl
    rw [hFull] at hLe
    rw [Double.negative, hSign, UInt64.toNat_ofNat']
    -- the magnitude stays below the sign bit
    cases negative with
    | true =>
        exact decide_eq_true (by rw [if_pos rfl]; omega)
    | false =>
        exact decide_eq_false
          (by rw [if_neg Bool.false_ne_true]; omega)
  exact hBits _ (Nat.min_le_right _ _)

theorem negative_ofInt
    (n : Int) :
    (ofInt n).negative = decide (n < 0) :=
  negative_ofRatio _ _ _

end Double

namespace Value

variable {n : Int}

/-
  A negative character becomes a positive float where it is
  folded, and a negative one where it is converted.
-/
theorem not_agrees_of_negative
    [Nonempty S]
    (E : Environment S)
    (hLow : -128 ≤ n)
    (hNegative : n < 0) :
    ¬ (Value.int n .char).Agrees E .float
      (.float (.ofInt (widened n .char)) .float) := by
  have hNumber : (BitVec.ofInt 8 n).toInt = n :=
    BitVec.toInt_ofInt_eq_self (by decide) (by omega)
      (by omega)
  have hRuns :
      (Value.int n .char).RunsAs E .float
        (.float (.ofInt n)) := by
    have hCarried :=
      runsAs_carried E (v := .int n .char) .float
        (fun _ => trivial) trivial trivial
    have hEq :
        E.carried (.int n .char) .float =
          .float (.ofInt n) :=
      congrArg (fun k => Datum.float (.ofInt k)) hNumber
    rw [hEq] at hCarried
    exact hCarried
  rintro ⟨d, hRuns', hSame⟩
  rw [← hRuns.unique hRuns'] at hSame
  have hFolded : Double.ofInt (n % 256) = Double.ofInt n :=
    Datum.float.inj (hSame fun hEq => by cases hEq)
  have hSigns := congrArg Double.negative hFolded
  rw [Double.negative_ofInt, Double.negative_ofInt,
    decide_eq_true hNegative, decide_eq_true_iff] at hSigns
  omega

/-
  A character or an integer agrees with the code, unless a
  negative character becomes a float.
-/
theorem int_agrees_iff
    [Nonempty S]
    (E : Environment S)
    {t target : Ty}
    (hRange :
      (t = .int ∧ -2147483648 ≤ n ∧ n ≤ 2147483647) ∨
        (t = .char ∧ -128 ≤ n ∧ n ≤ 127))
    (hTarget : target.IsNumeric) :
    ∃ folded, ofInt? n t target = some folded ∧
      ((Value.int n t).Agrees E target folded ↔
        (t = .char → target = .float → 0 ≤ n)) := by
  rcases hRange with ⟨rfl, hLow, hHigh⟩ | ⟨rfl, hLow, hHigh⟩
  · rcases ofInt?_settled_int E hLow hHigh hTarget with
      ⟨folded, hFold, hSettled⟩
    refine ⟨folded, hFold, fun _ hChar => ?_, fun _ => ?_⟩
    · cases hChar
    · exact agrees_of_settled (fun _ => trivial) trivial
        hTarget (Ty.admits_int _) hSettled
  · by_cases hSign : target = .float → 0 ≤ n
    · rcases ofInt?_settled_char E hSign hHigh hTarget with
        ⟨folded, hFold, hSettled⟩
      refine ⟨folded, hFold, fun _ _ => hSign, fun _ => ?_⟩
      exact agrees_of_settled (fun _ => trivial) trivial
        hTarget (Ty.admits_char _) hSettled
    · have hFloat : target = .float := by
        by_contra hNot
        exact hSign fun hEq => absurd hEq hNot
      subst hFloat
      refine ⟨_, rfl, fun hAgrees => ?_, fun hAll => ?_⟩
      · exact absurd hAgrees
          (not_agrees_of_negative E hLow (by omega))
      · exact absurd (hAll rfl) hSign

theorem float_agrees
    (E : Environment S)
    (x : Double)
    {target : Ty}
    (hTarget : target.IsNumeric) :
    ∃ folded, ofFloat? x target = some folded ∧
      (Value.float x .float).Agrees E target folded := by
  rcases ofFloat?_settled E x hTarget with
    ⟨folded, hFold, hSettled⟩
  exact ⟨folded, hFold,
    agrees_of_settled (fun _ => trivial) trivial hTarget
      (Ty.admits_float x) hSettled⟩

end Value

namespace Expr

/-
  A number in the range of its type, or arrays of numbers at
  any depth, with a target type of the same depth.
-/
inductive Numeral : Expr → Ty → Prop
| int {n : Int} {t : Ty} {line : Nat} {target : Ty}
    (hRange :
      (t = .int ∧ -2147483648 ≤ n ∧ n ≤ 2147483647) ∨
        (t = .char ∧ -128 ≤ n ∧ n ≤ 127))
    (hTarget : target.IsNumeric) :
    Numeral (.int n t line) target
| float {x : Double} {line : Nat} {target : Ty}
    (hTarget : target.IsNumeric) :
    Numeral (.float x line) target
| array {elements : List Expr} {t : Ty} {line n : Nat}
    {target : Ty}
      (hAll : ∀ e ∈ elements, Numeral e target) :
    Numeral (.array elements t line) (.array n target)

/-
  Each number in a folded literal agrees with the code that
  converts it; of negative characters that become floats,
  none does.
-/
inductive Folds (E : Environment S) : Expr → Ty →
    Value → Prop
| int {n : Int} {t : Ty} {line : Nat} {target : Ty}
    {folded : Value} (hAgrees :
      (Value.int n t).Agrees E target folded ↔
        (t = .char → target = .float → 0 ≤ n)) :
    Folds E (.int n t line) target folded
| float {x : Double} {line : Nat} {target : Ty}
    {folded : Value}
      (hAgrees :
        (Value.float x .float).Agrees E target folded) :
    Folds E (.float x line) target folded
| array {elements : List Expr} {t : Ty} {line n : Nat}
    {target : Ty} {values : List Value}
    (hLength : values.length = elements.length)
    (hAll :
      ∀ (i : Nat) (e : Expr) (v : Value), elements[i]? =
        some e → values[i]? = some v → Folds E e target v) :
    Folds E (.array elements t line) (.array n target)
      (.array values (.array n target))

/- A literal is converted without code. -/
theorem ofLiteral_convert
    {value folded : Value}
    {fold : Ty → Option Value}
    {target : Ty}
    (hFold : fold target = some folded)
    (line : Nat)
    (b : Builder) :
    (Lowering.ofLiteral value fold line).convert target b =
      .ok folded b := by
  simp only [Lowering.ofLiteral, Lowering.ofConvert, hFold]
  rfl

/- Elements that fold without code fold together. -/
theorem convertAll_folds
    {E : Environment S}
    {target : Ty}
    (elements : List Expr)
    (b : Builder)
    (hEach :
      ∀ e ∈ elements, ∃ folded, e.convert target b =
        .ok folded b ∧ Folds E e target folded) :
    ∃ values,
      Lowering.convertAll target (lowerAll elements) b =
        .ok values b ∧ values.length = elements.length ∧
        ∀ (i : Nat) (e : Expr) (v : Value), elements[i]? =
          some e → values[i]? = some v →
            Folds E e target v := by
  induction elements with
  | nil =>
      exact ⟨[], rfl, rfl, fun i e v hAt => by simp at hAt⟩
  | cons first rest ih =>
      rw [List.forall_mem_cons] at hEach
      rcases hEach with ⟨⟨folded, hOk, hFirst⟩, hRest⟩
      rcases ih hRest with ⟨values, hAll, hLength, hFolds⟩
      refine ⟨folded :: values, ?_,
        congrArg (· + 1) hLength, ?_⟩
      · rw [lowerAll]
        exact Step.bind_eq_ok.mpr ⟨folded, b, hOk,
          Step.bind_eq_ok.mpr ⟨values, b, hAll, rfl⟩⟩
      · intro i e v hExpr hValue
        cases i with
        | zero =>
            cases hExpr
            cases hValue
            exact hFirst
        | succ i => exact hFolds i e v hExpr hValue

/-
  Folding agrees with the code that converts, number by
  number, except for negative characters that become floats.
-/
theorem convert_folds
    [Nonempty S]
    (E : Environment S)
    {e : Expr}
    {target : Ty}
    (hNumeral : e.Numeral target)
    (b : Builder) :
    ∃ folded, e.convert target b = .ok folded b ∧
      e.Folds E target folded := by
  induction hNumeral with
  | @int n t line target hRange hTarget =>
      rcases Value.int_agrees_iff E hRange hTarget with
        ⟨folded, hFold, hAgrees⟩
      refine ⟨folded, ?_, .int hAgrees⟩
      rw [convert, lower]
      exact ofLiteral_convert hFold line b
  | @float x line target hTarget =>
      rcases Value.float_agrees E x hTarget with
        ⟨folded, hFold, hAgrees⟩
      refine ⟨folded, ?_, .float hAgrees⟩
      rw [convert, lower]
      exact ofLiteral_convert hFold line b
  | @array elements t line n target hAll ih =>
      rcases convertAll_folds elements b ih with
        ⟨values, hOk, hLength, hFolds⟩
      refine ⟨.array values (.array n target), ?_,
        .array hLength hFolds⟩
      rw [convert, lower]
      exact Step.bind_eq_ok.mpr ⟨values, b, hOk, rfl⟩

/-
  The two bytes of a letter beyond the first 128, a number
  and a fraction, all as integers.
-/
theorem mixed_folds :
    let mixed : Expr :=
      .array
        [.array [.int (-61) .char 1, .int (-87) .char 1]
            (.array 2 .char) 1,
          .array [.int (-7) .int 2,
            .float ⟨0x4006000000000000⟩ 2]
            (.array 2 .float) 2]
        (.array 2 (.array 2 .float)) 1
    let target : Ty := .array 2 (.array 2 .int)
    mixed.Numeral target ∧
      ∃ folded, mixed.convert target .empty =
        .ok folded .empty ∧
          mixed.Folds Environment.scores target folded := by
  intro mixed target
  have hNumeral : mixed.Numeral target := by
    refine .array fun row hRow => ?_
    simp only [List.mem_cons, List.not_mem_nil, or_false]
      at hRow
    rcases hRow with rfl | rfl
    · refine .array fun e hMem => ?_
      simp only [List.mem_cons, List.not_mem_nil, or_false]
        at hMem
      rcases hMem with rfl | rfl
      · exact .int (by decide) trivial
      · exact .int (by decide) trivial
    · refine .array fun e hMem => ?_
      simp only [List.mem_cons, List.not_mem_nil, or_false]
        at hMem
      rcases hMem with rfl | rfl
      · exact .int (by decide) trivial
      · exact .float trivial
  exact ⟨hNumeral,
    convert_folds Environment.scores hNumeral .empty⟩

/-
  Minus one as a character is folded to 255, and converted
  to minus one.
-/
theorem minus_one_differs :
    (Expr.int (-1) .char 1).Numeral .float ∧
      ∃ folded,
        (Expr.int (-1) .char 1).convert .float .empty =
            .ok folded .empty ∧
          ¬ (Value.int (-1) .char).Agrees Environment.scores
            .float folded :=
  ⟨.int (by decide) trivial, _, rfl,
    Value.not_agrees_of_negative Environment.scores
      (by decide) (by decide)⟩

end Expr

end Bracketry
