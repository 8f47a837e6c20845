import Bracketry.Proofs.Environment
import Bracketry.Proofs.Expr.Progress

/-
  This file compares the two ways to evaluate an expression:
  on exact integers, and by the instructions of a machine
  that works on bits.  Where the first gives a value, the
  second gives the same one; and for a well-typed expression
  the first is undefined for no other reason than those of
  its operations.

  Main declarations:
    * `Evaluation.Computes` and `Meaning.Evaluates`
    * `Place.path_agrees` and `Expr.meaning_evaluates`
-/

namespace Bracketry

variable {S α β γ δ : Type}

namespace Evaluation

/-
  Where the first gives a result, the second gives a related
  one and the same state.
-/
def Agrees
    (R : α → β → Prop)
    (x : Evaluation S α)
    (y : StateM S β) : Prop :=
  ∀ s,
    match x s with
    | .ok a s' => (y s).2 = s' ∧ R a (y s).1
    | .error reason _ => reason ≠ .illTyped

/- The two decide alike. -/
abbrev Decides
    (x : Evaluation S Datum)
    (decision : StateM S Bool) : Prop :=
  Agrees (fun d outcome => d = .bool outcome) x decision

/- The two give the same value of a type. -/
abbrev Computes
    (t : Ty)
    (x : Evaluation S Datum)
    (y : StateM S Datum) : Prop :=
  Agrees (fun d d' => d' = d ∧ t.Admits d) x y

namespace Agrees

variable {R : α → β → Prop} {Q : γ → δ → Prop}
variable {x : Evaluation S α} {y : StateM S β}

theorem pure
    {a : α}
    {b : β}
    (hRelated : R a b) :
    Agrees R (pure a : Evaluation S α) (pure b) :=
  fun _ => ⟨rfl, hRelated⟩

theorem bind
    {f : α → Evaluation S γ}
    {g : β → StateM S δ}
    (hFirst : Agrees R x y)
    (hSecond : ∀ a b, R a b → Agrees Q (f a) (g b)) :
    Agrees Q (x >>= f) (y >>= g) := by
  intro s
  have hStart := hFirst s
  change match EStateM.bind x f s with
    | .ok c s' =>
        (g (y s).1 (y s).2).2 = s' ∧
          Q c (g (y s).1 (y s).2).1
    | .error reason _ => reason ≠ .illTyped
  unfold EStateM.bind
  cases hx : x s with
  | ok a s₁ =>
      rw [hx] at hStart
      rw [hStart.1]
      exact hSecond a _ hStart.2 s₁
  | error reason s₁ =>
      rw [hx] at hStart
      exact hStart

/- The second may do more that leaves the state. -/
theorem bind_right
    {Q : α → δ → Prop}
    {g : β → StateM S δ}
    (hAgrees : Agrees R x y)
    (hRelated : ∀ a b, R a b → ∃ c,
      g b = Pure.pure c ∧ Q a c) :
    Agrees Q x (y >>= g) := by
  intro s
  have hStart := hAgrees s
  change match x s with
    | .ok a s' =>
        (g (y s).1 (y s).2).2 = s' ∧
          Q a (g (y s).1 (y s).2).1
    | .error reason _ => reason ≠ .illTyped
  cases hx : x s with
  | ok a s₁ =>
      rw [hx] at hStart
      rcases hRelated a _ hStart.2 with ⟨c, hPure, hQ⟩
      rw [hPure, hStart.1]
      exact ⟨rfl, hQ⟩
  | error reason s₁ =>
      rw [hx] at hStart
      exact hStart

/- The first may need a result without a state. -/
theorem bind_left
    {P : γ → Prop}
    {r : Except Undefined γ}
    {f : γ → Evaluation S α}
    (hSettled : Settled P r)
    (hRest : ∀ c, P c → Agrees R (f c) y) :
    Agrees R (MonadExcept.ofExcept r >>= f) y := by
  intro s
  cases r with
  | ok c => exact hRest c hSettled s
  | error reason => exact hSettled

/- A result that needs no state. -/
theorem ofExcept
    {r : Except Undefined α}
    {b : β}
    (hSettled : Settled (fun a => R a b) r) :
    Agrees R (ofExcept r : Evaluation S α)
      (Pure.pure b) := by
  intro s
  cases r with
  | ok a => exact ⟨rfl, hSettled⟩
  | error reason => exact hSettled

end Agrees

------------------------------------------------------------
-- Operations
------------------------------------------------------------

namespace Computes

variable {t source target : Ty} {x x' : Evaluation S Datum}
variable {y y' : StateM S Datum}
variable (E : Environment S)

theorem pure
    {d : Datum}
    (hAdmits : t.Admits d) :
    Computes t (pure d : Evaluation S Datum) (pure d) :=
  Agrees.pure ⟨rfl, hAdmits⟩

/- A value is converted by at most one instruction. -/
theorem convertedTo
    (hValue : Computes source x y)
    (hConverts : source.ConvertsTo target) :
    Computes target (x.convertedTo source target) (do
      let d ← y
      E.machine.converted source target d) := by
  apply hValue.bind
  rintro _ d ⟨rfl, hAdmits⟩
  unfold Interpretation.converted
  by_cases hSame : source = target
  · subst hSame
    rw [if_pos rfl, Datum.converted_self]
    exact .pure ⟨rfl, hAdmits⟩
  · rw [if_neg hSame]
    rcases hConverts.resolve_left hSame with
      ⟨hSource, hTarget⟩
    rcases Conversion.between?_of_ne hSource hTarget
      hSame with
      ⟨how, hHow⟩
    rw [hHow]
    exact .ofExcept
      (Environment.converted_settled hTarget hSame hHow
      hSource hAdmits)

/- Arithmetic works on two numbers of its type. -/
theorem combined
    (op : Arithmetic)
    (hLeft : Computes t x y)
    (hRight : Computes t x' y')
    (hNumeric : t.IsNumeric) :
    Computes t
      (do
        let a ← x
        let b ← x'
        ofExcept (E.combined op a b))
      (do
        let a ← y
        let b ← y'
        E.machine.arithmetic op t a b) := by
  apply hLeft.bind
  rintro _ a ⟨rfl, hAdmitsLeft⟩
  apply hRight.bind
  rintro _ b ⟨rfl, hAdmitsRight⟩
  exact .ofExcept
    (E.combined_settled op hNumeric hAdmitsLeft
      hAdmitsRight)

theorem negated
    (hOperand : Computes t x y)
    (hNumeric : t.IsNumeric) :
    Computes t
      (do
        let a ← x
        ofExcept (E.negated a))
      (do
        let a ← y
        E.machine.negate t a) := by
  apply hOperand.bind
  rintro _ a ⟨rfl, hAdmits⟩
  exact .ofExcept (E.negated_settled hNumeric hAdmits)

theorem compared
    (op : Comparison)
    (hLeft : Computes t x y)
    (hRight : Computes t x' y')
    (hComparable : t.IsNumeric ∨
      (op.IsEquality ∧ t = .bool)) :
    Computes .bool
      (do
        let a ← x
        let b ← x'
        ofExcept (E.compared op a b))
      (do
        let a ← y
        let b ← y'
        E.machine.compare op t a b) := by
  apply hLeft.bind
  rintro _ a ⟨rfl, hAdmitsLeft⟩
  apply hRight.bind
  rintro _ b ⟨rfl, hAdmitsRight⟩
  exact .ofExcept
    (E.compared_settled op hComparable hAdmitsLeft
      hAdmitsRight)

/- A literal is folded to what its value is converted to. -/
theorem ofLiteral
    {d : Datum}
    {value : Value}
    {fold : Ty → Option Value}
    (hFold :
      ∃ folded, fold target = some folded ∧
        Settled
          (fun d => E.machine.constant folded = d ∧
            target.Admits d)
          (d.converted source target)) :
    Computes target
      (Evaluation.convertedTo source target
        (Pure.pure d : Evaluation S Datum))
      (Pure.pure
        (E.machine.constant
          ((fold target).getD value))) := by
  rcases hFold with ⟨folded, hSome, hSettled⟩
  rw [hSome]
  exact .ofExcept hSettled

/- A bool is tested for the truth value that it is. -/
theorem tested
    (hValue : Computes .bool x y) :
    Decides x (E.machine.tested y) := by
  apply hValue.bind_right
  rintro _ d ⟨rfl, hAdmits⟩
  rw [Ty.Admits] at hAdmits
  rcases hAdmits with ⟨value, rfl⟩
  exact ⟨value, rfl, rfl⟩

/- An outcome is the truth value that a bool is. -/
theorem ofDecision
    {decision : StateM S Bool}
    (hDecision : Decides x decision) :
    Computes .bool x (do
      let outcome ← decision
      return E.machine.bool outcome .bool) := by
  apply hDecision.bind_right
  rintro _ outcome rfl
  exact ⟨.bool outcome, rfl, rfl, Ty.admits_bool outcome⟩

end Computes

namespace Decides

variable {x x' : Evaluation S Datum}
variable {left right : StateM S Bool}

/- What is done next depends on the same truth value. -/
theorem truth
    {f : Bool → Evaluation S Datum}
    {g : Bool → StateM S Bool}
    (hFirst : Decides x left)
    (hSecond : ∀ outcome, Decides (f outcome) (g outcome)) :
    Decides
      (do
        let a ← x
        let outcome ← ofExcept a.truth
        f outcome)
      (do
        let outcome ← left
        g outcome) := by
  apply hFirst.bind
  rintro _ outcome rfl
  exact hSecond outcome

theorem both
    (hLeft : Decides x left)
    (hRight : Decides x' right) :
    Decides
      (do
        let a ← x
        if ← ofExcept a.truth then x' else
          return .bool false)
      (Meaning.both left right) := by
  apply hLeft.truth
  intro outcome
  cases outcome with
  | true => exact hRight
  | false => exact Agrees.pure rfl

theorem either
    (hLeft : Decides x left)
    (hRight : Decides x' right) :
    Decides
      (do
        let a ← x
        if ← ofExcept a.truth then return .bool true else
          x')
      (Meaning.either left right) := by
  apply hLeft.truth
  intro outcome
  cases outcome with
  | true => exact Agrees.pure rfl
  | false => exact hRight

theorem opposite
    (hLeft : Decides x left) :
    Decides
      (do
        let a ← x
        let outcome ← ofExcept a.truth
        return .bool (!outcome))
      (Meaning.opposite left) := by
  apply hLeft.truth
  intro outcome
  exact Agrees.pure rfl

end Decides

theorem convertedTo_self
    (t : Ty)
    (x : Evaluation S Datum) :
    x.convertedTo t t = x := by
  funext s
  unfold convertedTo
  simp only [Datum.converted_self]
  exact congrFun (bind_pure x) s

end Evaluation

------------------------------------------------------------
-- Uses of an Expression
------------------------------------------------------------

open Evaluation

/-
  What an expression means to a machine is what it evaluates
  to: in its own type, in each type that it fits, and as a
  decision if it is of type bool.
-/
structure Meaning.Evaluates
    (E : Environment S)
    (meaning : Meaning Datum S)
    (e : Expr) : Prop where
  value : Computes e.ty (e.evaluateAs E e.ty) meaning.value
  valueAs :
    ∀ u, e.Fits u →
      Computes u (e.evaluateAs E u) (meaning.valueAs u)
  decision :
    e.ty = .bool →
      Decides (e.evaluateAs E .bool) meaning.decision

namespace Meaning

variable {E : Environment S} {e : Expr}
variable {x : Evaluation S Datum} {y : StateM S Datum}

/- A value that is converted when it is known. -/
theorem ofValue_evaluates
    {t : Ty}
    (hTy : e.ty = t)
    (hLiteral : ¬ e.IsArrayLiteral)
    (hValue : Computes t x y)
    (hEval : ∀ u, e.evaluateAs E u = x.convertedTo t u) :
    (ofValue E.machine t y).Evaluates E e where
  value := by
    rw [hTy, hEval, convertedTo_self]
    exact hValue
  valueAs := by
    intro u hFits
    have hConverts := (Expr.fits_iff hLiteral).mp hFits
    rw [hTy] at hConverts
    rw [hEval]
    exact hValue.convertedTo E hConverts
  decision := by
    intro hBool
    rw [hEval]
    apply Computes.tested E
    apply hValue.convertedTo E
    rw [← hTy, hBool]
    exact Ty.convertsTo_self .bool

/- A bool that is decided in its own way. -/
theorem withDecision_evaluates
    {decision : StateM S Bool}
    (hTy : e.ty = .bool)
    (hLiteral : ¬ e.IsArrayLiteral)
    (hValue : Computes .bool x y)
    (hDecision : Decides x decision)
    (hEval : ∀ u,
      e.evaluateAs E u = x.convertedTo .bool u) :
    (withDecision E.machine y decision).Evaluates E e where
  value :=
    (ofValue_evaluates hTy hLiteral hValue hEval).value
  valueAs :=
    (ofValue_evaluates hTy hLiteral hValue hEval).valueAs
  decision := by
    intro _
    rw [hEval, convertedTo_self]
    exact hDecision

/- A literal that is folded. -/
theorem ofLiteral_evaluates
    {d : Datum}
    {value : Value}
    {fold : Ty → Option Value}
    {t : Ty}
    (hTy : e.ty = t)
    (hLiteral : ¬ e.IsArrayLiteral)
    (hNumeric : t.IsNumeric)
    (hAdmits : t.Admits d)
    (hValue : E.machine.constant value = d)
    (hEval :
      ∀ u, e.evaluateAs E u =
        (pure d : Evaluation S Datum).convertedTo t u)
    (hFold :
      ∀ u : Ty, u.IsNumeric →
        ∃ folded, fold u = some folded ∧
          Settled
            (fun d => E.machine.constant folded = d ∧
              u.Admits d)
            (d.converted t u)) :
    (ofLiteral E.machine value fold).Evaluates E e where
  value := by
    rw [hTy, hEval, convertedTo_self]
    exact Agrees.pure ⟨hValue, hAdmits⟩
  valueAs := by
    intro u hFits
    have hTarget : u.IsNumeric := by
      rcases (Expr.fits_iff hLiteral).mp hFits with
        hEq | hBoth
      · rwa [← hEq, hTy]
      · exact hBoth.2
    rw [hEval]
    exact Computes.ofLiteral E (hFold u hTarget)
  decision := by
    intro hBool
    rw [← hTy, hBool] at hNumeric
    exact absurd hNumeric id

end Meaning

/- Variables have values of their types, in every state. -/
def Environment.Holds
    (E : Environment S)
    (xs : List Identifier) : Prop :=
  ∀ s, ∀ x ∈ xs, x.ty.Admits (E.memory s x.storage)

theorem Environment.holds_append
    {E : Environment S}
    {xs ys : List Identifier}
    (hHolds : E.Holds (xs ++ ys)) :
    E.Holds xs ∧ E.Holds ys := by
  constructor
  · intro s x hMem
    exact hHolds s x (List.mem_append_left ys hMem)
  · intro s x hMem
    exact hHolds s x (List.mem_append_right xs hMem)

/- A number that is a position is the one of a part. -/
theorem Ty.position_settled
    (t : Ty)
    (n : Int) :
    Settled
      (fun position =>
        position = n.toNat ∧ (t.part? n.toNat).isSome ∧
          0 ≤ n ∧ n < 2147483648)
      (t.position n) := by
  unfold Ty.position
  split
  case isTrue hPart => exact ⟨rfl, hPart⟩
  case isFalse =>
    intro hReason
    cases hReason

namespace Place

/-
  An address of a place: the path leads to a value of the
  type of the place, whatever the state is.
-/
def Located
    (E : Environment S)
    (place : Place)
    (path : List Nat)
    (d : Datum) : Prop :=
  d = .address place.root.storage path ∧
    ∀ s, ∃ part,
      (E.memory s place.root.storage).at? path = some part ∧
        place.ty.Admits part

/- The address of a part is one position longer. -/
theorem Located.part
    {E : Environment S}
    {parent : Place}
    {path : List Nat}
    {d : Datum}
    {bits : BitVec 32}
    (hLocated : parent.Located E path d)
    (place : Place)
    (hRoot : place.root = parent.root)
    (hLow : 0 ≤ bits.toInt)
    (hPart : parent.ty.part? bits.toInt.toNat =
      some place.ty) :
    place.Located E (path ++ [bits.toInt.toNat])
      (Environment.addressed d (.int bits)) := by
  rcases hLocated with ⟨rfl, hTyped⟩
  constructor
  · rw [Environment.addressed, if_pos hLow, hRoot]
  · intro s
    rcases hTyped s with ⟨whole, hWhole, hAdmits⟩
    rcases hAdmits.part? hPart with
      ⟨part, hFound, hAdmitsPart⟩
    refine ⟨part, ?_, hAdmitsPart⟩
    rw [hRoot, Datum.at?_append, hWhole]
    exact hFound

/- Where an address leads, a value is read. -/
theorem Located.loaded
    {E : Environment S}
    {place : Place}
    {path : List Nat}
    {d : Datum}
    (hLocated : place.Located E path d) :
    Computes place.ty (E.read place.root.storage path)
      (E.machine.load place.ty d) := by
  rcases hLocated with ⟨rfl, hTyped⟩
  intro s
  rcases hTyped s with ⟨part, hPart, hAdmits⟩
  have hRead : E.read place.root.storage path s =
      .ok part s := by
    rw [Environment.read, Step.get_bind, hPart]
    rfl
  have hLoad :
      E.loaded s (.address place.root.storage path) =
        part := by
    rw [Environment.loaded, hPart]
    rfl
  rw [hRead]
  exact ⟨rfl, hLoad, hAdmits⟩

end Place

------------------------------------------------------------
-- Expressions
------------------------------------------------------------

namespace Expr

variable {E : Environment S} {es : List Expr}
variable {meanings : List (Meaning Datum S)}

/- The elements of an array literal, all in one type. -/
theorem evaluateAll_agrees
    {t : Ty}
    (hMeanings :
      List.Forall₂ (Meaning.Evaluates E) meanings es)
    (hFit : AllFit es t) :
    Agrees
      (fun ds ds' =>
        ds' = ds ∧ ds.length = es.length ∧
          ∀ d ∈ ds, t.Admits d)
      (evaluateAll E es t)
        (Meaning.valuesAll t meanings) := by
  induction hMeanings with
  | nil =>
      rw [evaluateAll]
      exact Agrees.pure ⟨rfl, rfl, by simp⟩
  | cons hFirst hRest ih =>
      rw [evaluateAll]
      apply (hFirst.valueAs t hFit.1).bind
      rintro _ d ⟨rfl, hAdmits⟩
      apply (ih hFit.2).bind
      rintro _ ds ⟨rfl, hLength, hAll⟩
      apply Agrees.pure
      refine ⟨rfl, by simp [hLength], ?_⟩
      intro other hMem
      rcases List.mem_cons.mp hMem with rfl | hMem
      · exact hAdmits
      · exact hAll other hMem

/- Arguments, each in the type of its parameter. -/
theorem evaluateEach_agrees
    {params : List Ty}
    (hMeanings :
      List.Forall₂ (Meaning.Evaluates E) meanings es)
    (hTyped : AllWellTyped es)
    (hFit : ArgumentsFit es params) :
    Agrees (fun ds ds' => ds' = ds)
      (evaluateEach E es params)
      (Meaning.valuesEach meanings params) := by
  induction hMeanings generalizing params with
  | nil =>
      cases params with
      | nil =>
          simp only [evaluateEach]
          exact Agrees.pure rfl
      | cons param params => exact absurd hFit id
  | cons hFirst hRest ih =>
      cases params with
      | nil => exact absurd hFit id
      | cons param params =>
          rw [evaluateEach]
          have hFits := fits_of_convertsTo hTyped.1 hFit.1
          apply (hFirst.valueAs param hFits).bind
          rintro _ d ⟨rfl, -⟩
          apply (ih hTyped.2 hFit.2).bind
          rintro _ ds rfl
          exact Agrees.pure rfl

/- A comparison is made in the common type. -/
theorem compared_computes
    {left right : Expr}
    {a b : Meaning Datum S}
    (op : Comparison)
    (hEvalL : a.Evaluates E left)
    (hEvalR : b.Evaluates E right)
    (hLeft : left.WellTyped)
    (hRight : right.WellTyped)
    (hComparable :
      (op.IsEquality ∧ left.ty = .bool ∧ right.ty = .bool) ∨
        (left.ty.promote right.ty).isSome)
    (line : Nat) :
    Computes .bool
      (do
        let common := (left.ty.promote right.ty).getD .bool
        let a ← left.evaluateAs E common
        let b ← right.evaluateAs E common
        ofExcept (E.compared op a b))
      (Meaning.compare E.machine op a b
        (Lowering.comparedAs left.ty right.ty line)) := by
  rcases hComparable with
    ⟨hEquality, hBoolL, hBoolR⟩ | hSome
  · have hCommon :
        Lowering.comparedAs left.ty right.ty line =
          .ok .bool := by
      rw [hBoolL, hBoolR]
      rfl
    have hPromote : left.ty.promote right.ty = none := by
      rw [hBoolL]
      rfl
    have hFitsL : left.Fits .bool :=
      fits_of_convertsTo hLeft (.inl hBoolL)
    have hFitsR : right.Fits .bool :=
      fits_of_convertsTo hRight (.inl hBoolR)
    rw [hCommon, hPromote]
    exact Computes.compared E op
      (hEvalL.valueAs .bool hFitsL)
      (hEvalR.valueAs .bool hFitsR) (.inr ⟨hEquality, rfl⟩)
  · rcases Option.isSome_iff_exists.mp hSome with
      ⟨t, hPromote⟩
    rcases Ty.promote_eq_some hPromote with
      ⟨hNumL, hNumR, hNum⟩
    have hNotBool :
        ¬ (left.ty = .bool ∧ right.ty = .bool) := by
      intro hBools
      rw [hBools.1] at hNumL
      exact hNumL
    have hCommon :
        Lowering.comparedAs left.ty right.ty line =
          .ok t := by
      unfold Lowering.comparedAs
      rw [if_neg hNotBool, hPromote]
    have hFitsL :=
      fits_of_convertsTo hLeft (.inr ⟨hNumL, hNum⟩)
    have hFitsR :=
      fits_of_convertsTo hRight (.inr ⟨hNumR, hNum⟩)
    rw [hCommon, hPromote]
    exact Computes.compared E op (hEvalL.valueAs t hFitsL)
      (hEvalR.valueAs t hFitsR) (.inl hNum)

/- A call gets its arguments and gives its type. -/
theorem called_computes
    {params : List Ty}
    (hMeanings :
      List.Forall₂ (Meaning.Evaluates E) meanings es)
    (hTyped : AllWellTyped es)
    (hFit : ArgumentsFit es params)
    (callee : Identifier)
    (t : Ty) :
    Computes t
      (do
        let values ← evaluateEach E es params
        Evaluation.ofState (E.call callee.storage t values))
      (Meaning.call E.machine callee meanings
        params t) := by
  apply (evaluateEach_agrees hMeanings hTyped hFit).bind
  rintro _ values rfl
  intro s
  have hAdmits := E.call_admits callee.storage t values s
  refine ⟨rfl, ?_, hAdmits⟩
  by_cases hVoid : t = .void
  · subst hVoid
    rw [Ty.Admits] at hAdmits
    exact hAdmits.symm
  · change (if t = .void then Datum.nothing else _) = _
    rw [if_neg hVoid]

end Expr

mutual

/- A machine finds the address of a place by its path. -/
theorem Place.path_agrees
    {E : Environment S} :
    ∀ place : Place, place.WellTyped →
      place.PlainCharacters → E.Holds place.variables →
      Agrees (place.Located E) (place.path E)
        (place.located E.machine)
| .var x, _, _, hHolds => by
    rw [Place.path, Place.located]
    apply Agrees.pure
    refine ⟨rfl, ?_⟩
    intro s
    exact ⟨_, rfl, hHolds s x List.mem_cons_self⟩
| .element parent index t, hTyped, hPlain, hHolds => by
    rcases hTyped with
      ⟨hParent, hIndex, hIntegral, n, hArray⟩
    rcases Environment.holds_append hHolds with
      ⟨hLeft, hRight⟩
    have hFits : index.Fits .int := by
      apply Expr.fits_of_convertsTo hIndex
      exact Ty.convertsTo_of_numeric hIntegral.isNumeric
        trivial
    have hEvaluates :=
      Expr.meaning_evaluates index hIndex hPlain.2 hRight
    rw [Place.path, Place.located]
    apply (Place.path_agrees parent hParent hPlain.1
      hLeft).bind
    intro path base hLocated
    apply (hEvaluates.valueAs .int hFits).bind
    rintro _ d ⟨rfl, hAdmits⟩
    rw [Ty.Admits] at hAdmits
    rcases hAdmits with ⟨bits, rfl⟩
    have hNumber :
        Settled (fun n => n = bits.toInt)
          (Datum.int bits).number := rfl
    apply Agrees.bind_left hNumber
    rintro _ rfl
    apply Agrees.bind_left
      (parent.ty.position_settled bits.toInt)
    rintro _ ⟨rfl, hSome, hLow, -⟩
    apply Agrees.pure
    apply hLocated.part (.element parent index t) rfl hLow
    rw [hArray] at hSome ⊢
    rw [Ty.part?] at hSome ⊢
    split at hSome
    case isTrue hLt =>
      rw [if_pos hLt]
      rfl
    case isFalse => cases hSome
| .member parent position name t, hTyped, hPlain,
    hHolds => by
    rcases hTyped with
      ⟨hParent, serial, record, members, hRecord, hMember⟩
    rw [Place.path, Place.located]
    apply (Place.path_agrees parent hParent hPlain
      hHolds).bind
    intro path base hLocated
    have hPosition :=
      parent.ty.position_settled (position : Int)
    apply Agrees.bind_left hPosition
    rintro found ⟨hFound, -, hLow, hHigh⟩
    rw [hFound]
    apply Agrees.pure
    have hBits : (BitVec.ofInt 32 position).toInt =
      position :=
      toInt_ofInt_of_range (by omega) (by omega)
    have hPart :
        parent.ty.part?
          (BitVec.ofInt 32 position).toInt.toNat =
          some t := by
      rw [hBits, hRecord, Ty.part?, Int.toNat_natCast,
        hMember]
      rfl
    have hLow' : 0 ≤ (BitVec.ofInt 32 position).toInt := by
      rw [hBits]
      exact hLow
    have hResult :=
      hLocated.part (.member parent position name t)
      rfl hLow' hPart
    rw [hBits] at hResult
    exact hResult

theorem Expr.meaning_evaluates
    {E : Environment S} :
    ∀ e : Expr, e.WellTyped → e.PlainCharacters →
      E.Holds e.variables →
      (e.meaning E.machine).Evaluates E e
| .int n t line, hTyped, hPlain, _ => by
    rw [Expr.meaning]
    rcases hTyped with ⟨rfl, hLow, hHigh⟩ | ⟨rfl, -, -⟩
    · exact Meaning.ofLiteral_evaluates rfl id trivial
        (Ty.admits_int _) rfl
          (fun u => by rw [Expr.evaluateAs]; rfl)
        (fun u hTarget =>
          Value.ofInt?_settled_int E hLow hHigh hTarget)
    · rcases hPlain rfl with ⟨hLow, hHigh⟩
      exact Meaning.ofLiteral_evaluates rfl id trivial
        (Ty.admits_char _) rfl
          (fun u => by rw [Expr.evaluateAs]; rfl)
        (fun u hTarget =>
          Value.ofInt?_settled_char E (fun _ => hLow)
            hHigh hTarget)
| .float x line, _, _, _ => by
    rw [Expr.meaning]
    exact Meaning.ofLiteral_evaluates rfl id trivial
      (Ty.admits_float x) rfl
        (fun u => by rw [Expr.evaluateAs]; rfl)
      (fun u hTarget => Value.ofFloat?_settled E x hTarget)
| .boolean value line, _, _, _ => by
    rw [Expr.meaning]
    have hDecision :
        Decides (pure (.bool value) : Evaluation S Datum)
          (pure value) :=
      Agrees.pure rfl
    exact Meaning.withDecision_evaluates rfl id
      (Computes.ofDecision E hDecision) hDecision
      (fun u => by rw [Expr.evaluateAs])
| .zero t line, _, _, _ => by
    rw [Expr.meaning]
    exact Meaning.ofValue_evaluates rfl id
      (Computes.pure (Ty.admits_zero t))
      (fun u => by rw [Expr.evaluateAs]; rfl)
| .array elements t line, hTyped, hPlain, hHolds => by
    rcases hTyped with ⟨hElements, u, rfl, hFit⟩
    have hMeanings :=
      Expr.meanings_evaluate elements hElements
        hPlain hHolds
    rw [Expr.meaning]
    have hArray :
        ∀ w, Expr.AllFit elements w →
          Computes (.array elements.length w)
            ((Expr.array elements (.array elements.length u)
              line).evaluateAs E (.array elements.length w))
            (Meaning.array E.machine
              (Expr.meanings E.machine elements)
              (.array elements.length w)) := by
      intro w hFits
      rw [Expr.evaluateAs]
      apply (Expr.evaluateAll_agrees hMeanings hFits).bind
      rintro _ parts ⟨rfl, hLength, hAll⟩
      apply Computes.pure
      rw [Ty.Admits]
      exact ⟨parts, rfl, hLength, hAll⟩
    constructor
    case value => exact hArray u hFit
    case valueAs =>
      intro target hFits
      cases target with
      | array n w =>
          rcases hFits with ⟨rfl, hFits⟩
          exact hArray w hFits
      | _ =>
          simp only [Expr.Fits] at hFits
    case decision =>
      intro hBool
      cases hBool
| .read place line, hTyped, hPlain, hHolds => by
    rw [Expr.meaning]
    have hValue :
        Computes place.ty
          (do
            let path ← place.path E
            E.read place.root.storage path)
          (do
            let address ← place.located E.machine
            E.machine.load place.ty address) := by
      apply (Place.path_agrees place hTyped hPlain
        hHolds).bind
      intro path address hLocated
      exact hLocated.loaded
    exact Meaning.ofValue_evaluates rfl id hValue
      (fun u => by rw [Expr.evaluateAs])
| .arithmetic op left right t line, hTyped, hPlain,
    hHolds => by
    rcases hTyped with ⟨hLeft, hRight, hPromote⟩
    rcases Ty.promote_eq_some hPromote with
      ⟨hNumL, hNumR, hNum⟩
    rcases Environment.holds_append hHolds with
      ⟨hHoldsL, hHoldsR⟩
    have hFitsL :=
      Expr.fits_of_convertsTo hLeft (.inr ⟨hNumL, hNum⟩)
    have hFitsR :=
      Expr.fits_of_convertsTo hRight (.inr ⟨hNumR, hNum⟩)
    have hEvalL :=
      Expr.meaning_evaluates left hLeft hPlain.1 hHoldsL
    have hEvalR :=
      Expr.meaning_evaluates right hRight hPlain.2 hHoldsR
    rw [Expr.meaning]
    exact Meaning.ofValue_evaluates rfl id
      (Computes.combined E op (hEvalL.valueAs t hFitsL)
        (hEvalR.valueAs t hFitsR) hNum)
      (fun u => by rw [Expr.evaluateAs])
| .negate operand t line, hTyped, hPlain, hHolds => by
    rcases hTyped with ⟨hOperand, rfl, hNumeric⟩
    have hOf :=
      Expr.meaning_evaluates operand hOperand hPlain hHolds
    rw [Expr.meaning]
    exact Meaning.ofValue_evaluates rfl id
      (Computes.negated E hOf.value hNumeric)
      (fun u => by rw [Expr.evaluateAs])
| .call callee prototype args params t line, hTyped, hPlain,
    hHolds => by
    rcases hTyped with ⟨hArgs, hFit⟩
    have hMeanings :=
      Expr.meanings_evaluate args hArgs hPlain hHolds
    rw [Expr.meaning]
    exact Meaning.ofValue_evaluates rfl id
      (Expr.called_computes hMeanings hArgs hFit callee t)
      (fun u => by rw [Expr.evaluateAs])
| .compare op left right line, hTyped, hPlain, hHolds => by
    rcases hTyped with ⟨hLeft, hRight, hComparable⟩
    rcases Environment.holds_append hHolds with
      ⟨hHoldsL, hHoldsR⟩
    have hEvalL :=
      Expr.meaning_evaluates left hLeft hPlain.1 hHoldsL
    have hEvalR :=
      Expr.meaning_evaluates right hRight hPlain.2 hHoldsR
    have hValue :=
      Expr.compared_computes op hEvalL hEvalR hLeft hRight
      hComparable line
    rw [Expr.meaning]
    exact Meaning.withDecision_evaluates rfl id hValue
      (Computes.tested E hValue)
        (fun u => by rw [Expr.evaluateAs])
| .and left right line, hTyped, hPlain, hHolds => by
    rcases hTyped with ⟨hLeft, hRight, hBoolL, hBoolR⟩
    rcases Environment.holds_append hHolds with
      ⟨hHoldsL, hHoldsR⟩
    have hEvalL :=
      Expr.meaning_evaluates left hLeft hPlain.1 hHoldsL
    have hEvalR :=
      Expr.meaning_evaluates right hRight hPlain.2 hHoldsR
    have hDecision := Decides.both (hEvalL.decision hBoolL)
      (hEvalR.decision hBoolR)
    rw [Expr.meaning]
    exact Meaning.withDecision_evaluates rfl id
      (Computes.ofDecision E hDecision) hDecision
      (fun u => by rw [Expr.evaluateAs])
| .or left right line, hTyped, hPlain, hHolds => by
    rcases hTyped with ⟨hLeft, hRight, hBoolL, hBoolR⟩
    rcases Environment.holds_append hHolds with
      ⟨hHoldsL, hHoldsR⟩
    have hEvalL :=
      Expr.meaning_evaluates left hLeft hPlain.1 hHoldsL
    have hEvalR :=
      Expr.meaning_evaluates right hRight hPlain.2 hHoldsR
    have hDecision :=
      Decides.either (hEvalL.decision hBoolL)
      (hEvalR.decision hBoolR)
    rw [Expr.meaning]
    exact Meaning.withDecision_evaluates rfl id
      (Computes.ofDecision E hDecision) hDecision
      (fun u => by rw [Expr.evaluateAs])
| .not operand line, hTyped, hPlain, hHolds => by
    have hOf :=
      Expr.meaning_evaluates operand hTyped.1 hPlain hHolds
    have hDecision :=
      Decides.opposite (hOf.decision hTyped.2)
    rw [Expr.meaning]
    exact Meaning.withDecision_evaluates rfl id
      (Computes.ofDecision E hDecision) hDecision
      (fun u => by rw [Expr.evaluateAs])

/- So do several expressions, one by one. -/
theorem Expr.meanings_evaluate
    {E : Environment S} :
    ∀ es : List Expr, Expr.AllWellTyped es →
      Expr.AllPlainCharacters es →
        E.Holds (Expr.allVariables es) →
      List.Forall₂ (Meaning.Evaluates E)
        (Expr.meanings E.machine es) es
| [], _, _, _ => by
    rw [Expr.meanings]
    exact .nil
| e :: rest, hTyped, hPlain, hHolds => by
    rw [Expr.AllPlainCharacters] at hPlain
    rw [Expr.allVariables] at hHolds
    rcases Environment.holds_append hHolds with
      ⟨hFirst, hRest⟩
    rw [Expr.meanings]
    exact .cons
      (Expr.meaning_evaluates e hTyped.1 hPlain.1 hFirst)
      (Expr.meanings_evaluate rest hTyped.2 hPlain.2 hRest)

end

end Bracketry
