import Bracketry.Proofs.Code.Liveness
import Bracketry.Proofs.Raw

/-
  This file says what a discipline of writing is: a property
  of steps that all code has once the single steps have it.

  A step is looked at with the slots and labels in its
  reach, the labels it has to place, what it may take, and
  the temporaries that are live before it and handed on by
  it.  A discipline may ignore most of that.  Expressions
  are then followed only once, for all disciplines.

  Every node is written once, so what an expression takes is
  a sum over its nodes; as a choice it may take two labels
  more.

  Main declarations:
    * `Build.Discipline`
    * `Lowering.Respects`
    * `RawExpr.lower_respects`
-/

namespace Bracketry

------------------------------------------------------------
-- Disciplines
------------------------------------------------------------

namespace Build

open Builder (Reach)
open Instruction (UsesOnly)

/-
  The rules of a discipline, one for each way to write.
  What a step takes is paid from `n`.
-/
structure Discipline where
  Holds : {α : Type} → Reach → List Label → List Label →
    Nat → List Nat → (α → List Nat) → Build α → Prop
  pure :
    ∀ {α : Type} {reach : Reach} {given : List Label}
      {n : Nat}
    {live : List Nat} {result : α → List Nat} {a : α},
    (∀ k ∈ result a, k ∈ live) →
    Holds reach given [] n live result (pure a)
  throw :
    ∀ {α : Type} {reach : Reach} {given : List Label}
      {n : Nat}
    {live : List Nat} {result : α → List Nat}
      (fault : Fault),
    Holds reach given [] n live result (throw fault)
  afford :
    ∀ {α : Type} {reach : Reach} {given own : List Label}
    {m n : Nat} {live : List Nat} {result : α → List Nat}
      {x : Build α},
    Holds reach given own m live result x → m ≤ n →
    Holds reach given own n live result x
  supplyOf :
    ∀ {α β : Type} {slots : List String}
      {given : List Label}
    {m n : Nat} {live : List Nat} {result : α → List Nat}
    {more : β → List Nat} {x : Build α} {f : α → Build β},
    Holds ⟨slots, false⟩ [] [] m live result x → m ≤ n →
    (∀ a, (∃ b b', x b = .ok a b') →
      Holds ⟨slots, false⟩ given [] (n - m)
        (result a ++ live) more (f a)) →
    Holds ⟨slots, false⟩ given [] n live more (x >>= f)
  bindOf :
    ∀ {α β : Type} {reach : Reach}
      {given own₁ own₂ : List Label}
    {m n : Nat} {x : Build α} {f : α → Build β},
    Holds reach given own₁ m [] nothing x → m ≤ n →
    (∀ a, Holds reach given own₂ (n - m) [] nothing (f a)) →
    Holds reach given (own₁ ++ own₂) n [] nothing (x >>= f)
  perm :
    ∀ {α : Type} {reach : Reach}
      {given own₁ own₂ : List Label}
    {n : Nat} {x : Build α},
    Holds reach given own₁ n [] nothing x → own₁.Perm own₂ →
    Holds reach given own₂ n [] nothing x
  labelIf :
    ∀ {α : Type} {reach : Reach} {given own : List Label}
    {n : Nat} {f : Label → Build α} (needed : Bool), 1 ≤ n →
    (∀ l, Holds reach (l.kept needed ++ given)
      (l.kept needed ++ own) (n - 1) [] nothing (f l)) →
    Holds reach given own n [] nothing (Build.label >>= f)
  place :
    ∀ {reach : Reach} {given : List Label} {n : Nat}
      {l : Label},
    l ∈ given →
      Holds reach given [l] n [] nothing (Build.place l)
  jump :
    ∀ {reach : Reach} {given : List Label} {n : Nat}
      {l : Label},
    l ∈ given →
      Holds reach given [] n [] nothing (Build.jump l)
  branch : ∀ {reach : Reach} {given : List Label} {n : Nat}
    {live : List Nat} {condition : Value}
      {onTrue onFalse : Option Label},
    (∀ k ∈ condition.temporaries, k ∈ live) →
    (∀ l ∈ onTrue, l ∈ given) → (∀ l ∈ onFalse, l ∈ given) →
      2 ≤ n →
    Holds reach given [] n live nothing
      (Build.branch condition onTrue onFalse)
  append : ∀ {reach : Reach} {given : List Label} {n : Nat}
    {live : List Nat} {i : Instruction},
    i.IsSimple → i.dest? = none → i.targets = [] →
    (∀ slot ∈ i.accessed?, slot ∈ reach.slots) →
      UsesOnly live i →
    1 ≤ n →
      Holds reach given [] n live nothing (Build.append i)
  define :
    ∀ {slots : List String} {n : Nat} {live : List Nat}
      {t : Ty}
    {i : Nat → Instruction},
    (∀ k, (i k).IsSimple) → (∀ k, (i k).dest? = some k) →
    (∀ k, ∀ slot ∈ (i k).accessed?, slot ∈ slots) →
    (∀ k, UsesOnly live (i k)) → 1 ≤ n →
    Holds ⟨slots, false⟩ [] [] n live Value.temporaries
      (Build.define t i)
  allocate :
    ∀ {slots : List String} {n : Nat} {live : List Nat}
    (x : Identifier), x.storage ∈ slots → 1 ≤ n →
    Holds ⟨slots, false⟩ [] [] n live nothing
      (Build.allocate x.storage x.ty)
  merge :
    ∀ {slots : List String} {m n : Nat} {live : List Nat}
    {branches : Choice},
    (∀ onTrue onFalse,
      Holds ⟨slots, false⟩ [onTrue, onFalse] [] m []
      nothing (branches (some onTrue) (some onFalse))) →
        m + 4 ≤ n →
    Holds ⟨slots, false⟩ [] [] n live Value.temporaries
      (Lowering.merge branches)
  insideLoop :
    ∀ {α : Type} {reach : Reach} {given : List Label}
      {n : Nat}
    {exit : Label} {body : Build α}, exit ∈ given →
    Holds reach given [] n [] nothing body →
    Holds reach given [] n [] nothing
      (Build.insideLoop exit body)
  leaving :
    ∀ {α : Type} {reach : Reach} {given : List Label}
      {n : Nat}
    {x : Build α}, Holds ⟨reach.slots, false⟩ given [] n []
      nothing x →
    Holds reach given [] n [] nothing x
  getBind :
    ∀ {α : Type} {reach : Reach} {given own : List Label}
      {n : Nat}
    {f : Builder → Build α},
    (∀ b, Holds reach given own n [] nothing (f b)) →
    Holds reach given own n [] nothing (get >>= f)
  leave :
    ∀ {reach : Reach} {given : List Label} {n : Nat}
      (line : Nat),
    reach.breaks = true →
    Holds reach given [] n [] nothing (Stmt.lowerBreak line)

namespace Discipline

variable {α β : Type} {slots : List String} {reach : Reach}
variable {given own : List Label} {m n : Nat}
variable {live : List Nat} {result : α → List Nat}
variable {x : Build α} {f : α → Build β} {l : Label}

/- An operand is written without leaving its code. -/
def Supplies
    (D : Discipline)
    (slots : List String)
    (n : Nat)
    (live : List Nat)
    (x : Build Value) : Prop :=
  D.Holds ⟨slots, false⟩ [] [] n live Value.temporaries x

/- A choice leaves for no labels but its own. -/
def Decides
    (D : Discipline)
    (slots : List String)
    (n : Nat)
    (choice : Choice) : Prop :=
  ∀ ⦃given : List Label⦄ ⦃onTrue onFalse : Option Label⦄,
    (∀ l ∈ onTrue, l ∈ given) → (∀ l ∈ onFalse, l ∈ given) →
    D.Holds ⟨slots, false⟩ given [] n [] nothing
      (choice onTrue onFalse)

variable (D : Discipline)

theorem supply
    {more : β → List Nat}
    (hFirst : D.Holds ⟨slots, false⟩ [] [] m live result x)
    (hLe : m ≤ n)
    (hSecond : ∀ a, D.Holds ⟨slots, false⟩ given [] (n - m)
      (result a ++ live) more (f a)) :
    D.Holds ⟨slots, false⟩ given [] n live more (x >>= f) :=
  D.supplyOf hFirst hLe fun a _ => hSecond a

theorem bind
    (hFirst : D.Holds reach given [] m [] nothing x)
    (hLe : m ≤ n)
    (hSecond : ∀ a,
      D.Holds reach given own (n - m) [] nothing (f a)) :
    D.Holds reach given own n [] nothing (x >>= f) :=
  D.bindOf hFirst hLe hSecond

theorem label
    {f : Label → Build α}
    (hLe : 1 ≤ n)
    (hNext : ∀ l,
      D.Holds reach (l :: given) (l :: own) (n - 1) []
      nothing (f l)) :
    D.Holds reach given own n [] nothing
      (Build.label >>= f) :=
  D.labelIf true hLe hNext

/- A label is placed, with more of them behind it. -/
theorem placeBind
    {f : Unit → Build β}
    (hGiven : l ∈ given)
    (hNext : ∀ a,
      D.Holds reach given own n [] nothing (f a)) :
    D.Holds reach given (l :: own) n [] nothing
      (Build.place l >>= f) :=
  D.bindOf (m := 0) (D.place hGiven) (Nat.zero_le n) hNext

theorem placeIf
    {needed : Bool}
    (hGiven : needed = true → l ∈ given)
    (hNext : D.Holds reach given own n [] nothing x) :
    D.Holds reach given (l.kept needed ++ own) n [] nothing
      (if needed = true then Build.place l >>= fun _ =>
        x else x) := by
  cases needed with
  | true => exact D.placeBind (hGiven rfl) fun _ => hNext
  | false => exact hNext

/- A choice between any labels keeps to these. -/
theorem Decides.on
    {choice : Choice}
    (hDecides : D.Decides slots n choice)
    (onTrue onFalse : Option Label) :
    D.Holds ⟨slots, false⟩ (onTrue.toList ++ onFalse.toList)
      [] n [] nothing (choice onTrue onFalse) :=
  hDecides (by simp +contextual) (by simp +contextual)

/- An operand is converted by at most one instruction. -/
theorem convertValue
    {value : Value}
    (target : Ty)
    (line : Nat)
    (hLive : ∀ k ∈ value.temporaries, k ∈ live)
    (hLe : 1 ≤ n) :
    D.Supplies slots n live
      (Build.convertValue value target line) := by
  unfold Build.convertValue
  by_cases hSame : value.ty = target
  · simp only [hSame, if_true]
    exact D.pure hLive
  · simp only [hSame, if_false]
    cases Conversion.between? value.ty target with
    | some how =>
        refine D.define (fun _ => trivial) (fun _ => rfl) ?_
          (fun _ => ?_) hLe
        · simp [Instruction.accessed?, Instruction.address?]
        · exact Instruction.usesOnly_iff.mpr
            (by simpa [Instruction.operands] using hLive)
    | none => exact D.throw _

end Discipline

end Build

open Instruction (usesOnly_iff)

/- The slots of some variables are among given ones. -/
def Identifier.StoredIn
    (xs : List Identifier)
    (slots : List String) : Prop :=
  ∀ x ∈ xs, x.storage ∈ slots

theorem Identifier.storedIn_append
    {xs ys : List Identifier} :
    StoredIn (xs ++ ys) slots ↔
      StoredIn xs slots ∧ StoredIn ys slots :=
  List.forall_mem_append

theorem Identifier.storedIn_storage
    (xs : List Identifier) :
    StoredIn xs (xs.map storage) :=
  fun _ => List.mem_map_of_mem

variable {slots : List String} {v : Value}

/- An address is named only for a whole variable. -/
theorem RawPlace.stored_of_address
    {place : RawPlace}
    (hStored : Identifier.StoredIn place.variables slots)
    (hOk : ∃ b b', place.address b = .ok v b') :
    ∀ slot ∈ v.name?, slot ∈ slots := by
  rcases hOk with ⟨b, b', hOk⟩
  intro slot hSlot
  cases place with
  | var x =>
      rw [address] at hOk
      rcases Step.bind_eq_ok.mp hOk with ⟨_, b₁, -, hOk⟩
      rcases Step.pure_eq_ok.mp hOk with ⟨rfl, -⟩
      cases hSlot
      exact hStored x List.mem_cons_self
  | element parent index t =>
      rw [address] at hOk
      rcases Step.bind_eq_ok.mp hOk with ⟨base, b₁, -, hOk⟩
      rcases Step.bind_eq_ok.mp hOk with
        ⟨position, b₂, -, hOk⟩
      cases hOk
      cases hSlot
  | member parent position name t =>
      rw [address] at hOk
      rcases Step.bind_eq_ok.mp hOk with ⟨base, b₁, -, hOk⟩
      cases hOk
      cases hSlot

theorem Place.stored_of_address
    {place : Place}
    (hStored : Identifier.StoredIn place.variables slots)
    (hOk : ∃ b b', place.address b = .ok v b') :
    ∀ slot ∈ v.name?, slot ∈ slots := by
  rw [← place.raw_eq.2.1] at hStored
  rw [← place.raw_eq.1] at hOk
  exact RawPlace.stored_of_address hStored hOk

/- Literals are converted to literals. -/
theorem Value.temporaries_of_ofInt?
    {value : Int}
    {t target : Ty}
    (hFold : v ∈ Value.ofInt? value t target) :
    v.temporaries = [] := by
  unfold Value.ofInt? at hFold
  split at hFold <;> cases hFold <;> rfl

theorem Value.temporaries_of_ofFloat?
    {value : Double}
    {target : Ty}
    (hFold : v ∈ Value.ofFloat? value target) :
    v.temporaries = [] := by
  unfold Value.ofFloat? at hFold
  split at hFold <;> cases hFold <;> rfl

------------------------------------------------------------
-- Uses of an Expression
------------------------------------------------------------

open Build (Discipline)

/-
  All three uses respect a discipline, and need nothing that
  is live before.
-/
structure Lowering.Respects
    (D : Discipline)
    (slots : List String)
    (n : Nat)
    (lowering : Lowering) : Prop where
  reduce : ∀ live, D.Supplies slots n live lowering.reduce
  convert : ∀ live t, D.Supplies slots n live
    (lowering.convert t)
  branches : D.Decides slots (n + 2) lowering.branches

namespace Lowering

variable {D : Discipline} {k m n : Nat}
variable {reduce : Build Value}
variable {branches left right : Choice}

theorem ofConvert_respects
    {convert : Ty → Build Value}
    (hReduce : ∀ live, D.Supplies slots n live reduce)
    (hConvert : ∀ live t,
      D.Supplies slots n live (convert t)) :
    (ofConvert reduce convert).Respects D slots n where
  reduce := hReduce
  convert := hConvert
  branches := by
    intro given onTrue onFalse hTrue hFalse
    refine D.supply (hConvert [] .bool) (by omega)
      fun condition => ?_
    exact D.branch (by simp) hTrue hFalse (by omega)

theorem ofReduce_respects
    (hReduce : ∀ live, D.Supplies slots n live reduce)
    (line : Nat) :
    (ofReduce reduce line).Respects D slots (n + 1) := by
  refine ofConvert_respects
    (fun live => D.afford (hReduce live) (Nat.le_succ n))
    fun live target => ?_
  refine D.supply (hReduce live) (Nat.le_succ n)
    fun value => ?_
  exact D.convertValue target line
    (fun _ hMem => List.mem_append_left _ hMem) (by omega)

theorem ofLiteral_respects
    {value : Value}
    {fold : Ty → Option Value}
    (hValue : value.temporaries = [])
    (hFold : ∀ t, ∀ folded ∈ fold t,
      folded.temporaries = [])
    (line : Nat) :
    (ofLiteral value fold line).Respects D slots n := by
  refine ofConvert_respects
    (fun live => D.pure (by simp [hValue]))
    fun live target => ?_
  cases hFolded : fold target with
  | some folded =>
      exact D.pure (by simp [hFold target folded hFolded])
  | none => exact D.throw _

theorem withBranches_respects
    (hReduce : ∀ live, D.Supplies slots n live reduce)
    (hBranches : D.Decides slots (n + 3) branches)
    (line : Nat) :
    (withBranches reduce branches line).Respects D slots
      (n + 1) :=
  { ofReduce_respects hReduce line with
    branches := hBranches }

/- A choice is merged when it is wanted as an operand. -/
theorem mergeBranches_respects
    (hBranches : D.Decides slots m branches)
    (hLe : m + 4 ≤ n)
    (line : Nat) :
    (withBranches (merge branches) branches line).Respects D
      slots (n + 1) :=
  withBranches_respects
    (fun _ => D.merge
      (fun _ _ => hBranches (by simp) (by simp)) hLe)
    (fun _ _ _ hTrue hFalse =>
      D.afford (hBranches hTrue hFalse) (by omega)) line

theorem settled_respects
    (value : Bool) :
    D.Decides slots n (settled value) := by
  intro given onTrue onFalse hTrue hFalse
  cases value with
  | true =>
      cases onTrue with
      | some label => exact D.jump (hTrue label rfl)
      | none => exact D.pure (by simp [Build.nothing])
  | false =>
      cases onFalse with
      | some label => exact D.jump (hFalse label rfl)
      | none => exact D.pure (by simp [Build.nothing])

/- At most one label is taken for the way out. -/
theorem both_respects
    (hLeft : D.Decides slots k left)
    (hRight : D.Decides slots m right)
    (hLe : k + m + 1 ≤ n) :
    D.Decides slots n (both left right) := by
  intro given onTrue onFalse hTrue hFalse
  cases onFalse with
  | some exit =>
      refine D.bind (hLeft (by simp) hFalse) (by omega)
        fun _ => ?_
      exact D.afford (hRight hTrue hFalse) (by omega)
  | none =>
      refine D.label (by omega) fun exit => ?_
      refine D.bind (hLeft (by simp) (by simp)) (by omega)
        fun _ => ?_
      have hTrue' : ∀ l ∈ onTrue, l ∈ exit :: given :=
        fun l hMem =>
          List.mem_cons_of_mem exit (hTrue l hMem)
      refine D.bind (hRight hTrue' (by simp)) (by omega)
        fun _ => ?_
      exact D.place List.mem_cons_self

/- A disjunction is a conjunction of opposites. -/
theorem either_eq_both
    (left right : Choice)
    (onTrue onFalse : Option Label) :
    either left right onTrue onFalse =
      both (fun t f => left f t) (fun t f => right f t)
        onFalse onTrue := by
  cases onTrue <;> rfl

theorem either_respects
    (hLeft : D.Decides slots k left)
    (hRight : D.Decides slots m right)
    (hLe : k + m + 1 ≤ n) :
    D.Decides slots n (either left right) := by
  intro given onTrue onFalse hTrue hFalse
  rw [either_eq_both]
  exact both_respects
    (fun _ _ _ hT hF => hLeft hF hT)
    (fun _ _ _ hT hF => hRight hF hT) hLe hFalse hTrue

/- An operation on two operands. -/
theorem binary_respects
    {first second : Build Value}
    {t : Ty}
    {i : Nat → Value → Value → Instruction}
    (hFirst : ∀ live, D.Supplies slots k live first)
    (hSecond : ∀ live, D.Supplies slots m live second)
    (hSimple : ∀ n a b, (i n a b).IsSimple)
    (hDest : ∀ n a b, (i n a b).dest? = some n)
    (hAddress : ∀ n a b, (i n a b).address? = none)
    (hOperands : ∀ n a b, (i n a b).operands = [a, b])
    (live : List Nat) :
    D.Supplies slots (k + m + 1) live (do
      let a ← first
      let b ← second
      Build.define t fun dest => i dest a b) := by
  refine D.supply (hFirst live) (by omega) fun a => ?_
  refine D.supply (hSecond _) (by omega) fun b => ?_
  refine D.define (fun n => hSimple n a b)
    (fun n => hDest n a b) ?_ ?_ (by omega)
  · simp [Instruction.accessed?, hAddress]
  · refine fun n => usesOnly_iff.mpr ?_
    rw [hOperands]
    simp +contextual

theorem compare_respects
    (op : Comparison)
    {first second : Lowering}
    (hFirst : first.Respects D slots k)
    (hSecond : second.Respects D slots m)
    (common : Except Fault Ty)
    (live : List Nat) :
    D.Supplies slots (k + m + 1) live
      (compare op first second common) := by
  cases common with
  | error fault => exact D.throw fault
  | ok t =>
      exact binary_respects
        (i := fun dest a b => .compare dest op t a b)
        (hFirst.convert · t) (hSecond.convert · t)
          (fun _ _ _ => trivial)
        (fun _ _ _ => rfl) (fun _ _ _ => rfl)
          (fun _ _ _ => rfl) live

/- All elements have one type: that of parameters. -/
theorem convertAll_eq_convertEach
    (t : Ty)
    (elements : List Lowering) :
    convertAll t elements =
      convertEach elements
        (List.replicate elements.length t) := by
  induction elements with
  | nil => rfl
  | cons element rest ih =>
      simp only [convertAll, List.length_cons,
        List.replicate_succ, convertEach, ih]

/- Several operands are written one behind the other. -/
def AllRespect
    (D : Discipline)
    (slots : List String)
    (n : Nat)
    (args : List Lowering) : Prop :=
  ∀ live params, D.Holds ⟨slots, false⟩ [] [] n live
    Value.allTemporaries (convertEach args params)

theorem array_respects
    {elements : List Lowering}
    (hElements : AllRespect D slots n elements)
    (source : Ty)
    (line : Nat)
    (live : List Nat)
    (target : Ty) :
    D.Supplies slots n live
      (array elements source line target) := by
  unfold array
  cases target.element? with
  | none => exact D.throw _
  | some t =>
      simp only [convertAll_eq_convertEach]
      refine D.supply (hElements live _) (Nat.le_refl n)
        fun values => ?_
      exact D.pure (by simp +contextual [Value.temporaries])

theorem call_respects
    (callee : Identifier)
    {args : List Lowering}
    (hArgs : AllRespect D slots n args)
    (params : List Ty)
    (t : Ty)
    (live : List Nat) :
    D.Supplies slots (n + 1) live
      (call callee args params t) := by
  unfold call
  refine D.supply (hArgs live params) (Nat.le_succ n)
    fun values => ?_
  have hUses :
      ∀ dest,
        (Instruction.call dest t callee.storage
          values).UsesOnly
            (Value.allTemporaries values ++ live) :=
    fun dest n hUse => List.mem_append_left _ hUse
  by_cases hVoid : t = .void
  · simp only [hVoid, if_true]
    subst hVoid
    refine D.supply
      (D.append trivial rfl rfl ?_ (hUses none)
      (Nat.le_refl 1)) (by omega) fun _ => D.pure ?_
    · simp [Instruction.accessed?, Instruction.address?]
    · simp [Value.temporaries]
  · simp only [hVoid, if_false]
    refine D.define (fun _ => trivial) (fun _ => rfl) ?_
      (fun _ => hUses _) (by omega)
    simp [Instruction.accessed?, Instruction.address?]

end Lowering

variable {D : Discipline}

mutual

/- The address of a place is computed from its indices. -/
theorem RawPlace.address_respects :
    ∀ place : RawPlace, Identifier.StoredIn place.variables
      slots → ∀ live,
        D.Supplies slots place.cost live place.address
| .var x, hStored, live => by
    rw [RawPlace.variables] at hStored
    rw [RawPlace.address, RawPlace.cost]
    refine D.supply
      (D.allocate x (hStored x List.mem_cons_self)
      (Nat.le_refl 1)) (Nat.le_refl 1) fun _ => ?_
    exact D.pure (by simp [Value.temporaries])
| .element parent index t, hStored, live => by
    rw [RawPlace.variables] at hStored
    rcases Identifier.storedIn_append.mp hStored with
      ⟨hParent, hIndex⟩
    rw [RawPlace.address, RawPlace.cost]
    refine D.supplyOf (RawPlace.address_respects parent
      hParent live) (by omega) fun base hBase => ?_
    refine D.supply
      ((RawExpr.lower_respects index hIndex).convert _ .int)
      (by omega) fun position => ?_
    refine D.define (fun _ => trivial) (fun _ => rfl) ?_
      (fun n => ?_) (by omega)
    · exact fun _ =>
        RawPlace.stored_of_address hParent hBase
    · exact usesOnly_iff.mpr
        (by simp +contextual [Instruction.operands])
| .member parent position name t, hStored, live => by
    rw [RawPlace.variables] at hStored
    rw [RawPlace.address, RawPlace.cost]
    refine D.supplyOf (RawPlace.address_respects parent
      hStored live) (by omega) fun base hBase => ?_
    refine D.define (fun _ => trivial) (fun _ => rfl) ?_
      (fun n => ?_) (by omega)
    · exact fun _ =>
        RawPlace.stored_of_address hStored hBase
    · exact usesOnly_iff.mpr
        (by
          simp +contextual
            [Instruction.operands, Value.temporaries])

/- An expression respects every discipline at its cost. -/
theorem RawExpr.lower_respects :
    ∀ e : RawExpr, Identifier.StoredIn e.variables slots →
      e.lower.Respects D slots e.cost
| .int value t line, _ => by
    rw [RawExpr.lower]
    exact Lowering.ofLiteral_respects rfl
      (fun _ _ => Value.temporaries_of_ofInt?) line
| .float value t line, _ => by
    rw [RawExpr.lower]
    exact Lowering.ofLiteral_respects rfl
      (fun _ _ => Value.temporaries_of_ofFloat?) line
| .boolean value t line, _ => by
    rw [RawExpr.lower, RawExpr.cost]
    exact Lowering.withBranches_respects
      (fun _ => D.pure (by simp [Value.temporaries]))
      (Lowering.settled_respects value) line
| .zero t line, _ => by
    rw [RawExpr.lower, RawExpr.cost]
    exact Lowering.ofReduce_respects
      (fun _ => D.pure (by simp [Value.temporaries])) line
| .array elements t line, hStored => by
    rw [RawExpr.variables] at hStored
    rw [RawExpr.lower, RawExpr.cost]
    have hElements :=
      RawExpr.lowerAll_respects elements hStored
    exact Lowering.ofConvert_respects
      (fun live => Lowering.array_respects hElements t
        line live t)
      (Lowering.array_respects hElements t line)
| .read place t line, hStored => by
    rw [RawExpr.variables] at hStored
    rw [RawExpr.lower, RawExpr.cost]
    refine Lowering.ofReduce_respects (fun live => ?_) line
    refine D.supplyOf (RawPlace.address_respects place
      hStored live) (by omega) fun address hAddress => ?_
    refine D.define (fun _ => trivial) (fun _ => rfl) ?_
      (fun n => ?_) (by omega)
    · exact fun _ =>
        RawPlace.stored_of_address hStored hAddress
    · exact usesOnly_iff.mpr
        (by simp +contextual [Instruction.operands])
| .arithmetic op left right t line, hStored => by
    rw [RawExpr.variables] at hStored
    rcases Identifier.storedIn_append.mp hStored with
      ⟨hLeft, hRight⟩
    rw [RawExpr.lower, RawExpr.cost]
    exact Lowering.ofReduce_respects
      (Lowering.binary_respects
        (i := fun dest a b => .arithmetic dest op t a b)
        ((RawExpr.lower_respects left hLeft).convert · t)
        ((RawExpr.lower_respects right hRight).convert · t)
        (fun _ _ _ => trivial) (fun _ _ _ => rfl)
          (fun _ _ _ => rfl)
        (fun _ _ _ => rfl)) line
| .negate operand t line, hStored => by
    rw [RawExpr.variables] at hStored
    rw [RawExpr.lower, RawExpr.cost]
    refine Lowering.ofReduce_respects (fun live => ?_) line
    refine D.supply
      ((RawExpr.lower_respects operand hStored).reduce live)
      (by omega) fun value => ?_
    refine D.define (fun _ => trivial) (fun _ => rfl) ?_
      (fun n => ?_) (by omega)
    · simp [Instruction.accessed?, Instruction.address?]
    · exact usesOnly_iff.mpr
        (by simp +contextual [Instruction.operands])
| .call callee prototype args params t line, hStored => by
    rw [RawExpr.variables] at hStored
    rw [RawExpr.lower, RawExpr.cost]
    exact Lowering.ofReduce_respects
      (Lowering.call_respects callee
        (RawExpr.lowerAll_respects args hStored)
        params t) line
| .compare op left right t line, hStored => by
    rw [RawExpr.variables] at hStored
    rcases Identifier.storedIn_append.mp hStored with
      ⟨hLeft, hRight⟩
    rw [RawExpr.lower, RawExpr.cost]
    have hCompare := Lowering.compare_respects (D := D) op
      (RawExpr.lower_respects left hLeft)
        (RawExpr.lower_respects right hRight)
      (Lowering.comparedAs left.ty right.ty line)
    refine Lowering.withBranches_respects hCompare ?_ line
    intro given onTrue onFalse hTrue hFalse
    refine D.supply (hCompare []) (by omega)
      fun condition => ?_
    exact D.branch (by simp) hTrue hFalse (by omega)
| .and left right t line, hStored => by
    rw [RawExpr.variables] at hStored
    rcases Identifier.storedIn_append.mp hStored with
      ⟨hLeft, hRight⟩
    rw [RawExpr.lower, RawExpr.cost]
    exact Lowering.mergeBranches_respects
      (Lowering.both_respects
        (RawExpr.lower_respects left hLeft).branches
        (RawExpr.lower_respects right hRight).branches
          (Nat.le_refl _))
      (by omega) line
| .or left right t line, hStored => by
    rw [RawExpr.variables] at hStored
    rcases Identifier.storedIn_append.mp hStored with
      ⟨hLeft, hRight⟩
    rw [RawExpr.lower, RawExpr.cost]
    exact Lowering.mergeBranches_respects
      (Lowering.either_respects
        (RawExpr.lower_respects left hLeft).branches
        (RawExpr.lower_respects right hRight).branches
          (Nat.le_refl _))
      (by omega) line
| .not operand t line, hStored => by
    rw [RawExpr.variables] at hStored
    rw [RawExpr.lower, RawExpr.cost]
    have hOperand :=
      (RawExpr.lower_respects operand hStored).branches
    exact Lowering.mergeBranches_respects
      (fun _ _ _ hTrue hFalse => hOperand hFalse hTrue)
        (Nat.le_refl _) line

/- So do several expressions at the sum of their costs. -/
theorem RawExpr.lowerAll_respects :
    ∀ es : List RawExpr, Identifier.StoredIn
      (RawExpr.allVariables es) slots →
      Lowering.AllRespect D slots (RawExpr.allCost es)
        (RawExpr.lowerAll es)
| [], _ => by
    rw [RawExpr.lowerAll]
    exact fun live params =>
      D.pure (by simp [Value.allTemporaries])
| e :: rest, hStored => by
    rw [RawExpr.allVariables] at hStored
    rcases Identifier.storedIn_append.mp hStored with
      ⟨hFirst, hRest⟩
    rw [RawExpr.lowerAll, RawExpr.allCost]
    intro live params
    cases params with
    | nil => exact D.pure (by simp [Value.allTemporaries])
    | cons param params =>
        refine D.supply
          ((RawExpr.lower_respects e hFirst).convert
            live param)
          (by omega) fun value => ?_
        refine D.supply
          (RawExpr.lowerAll_respects rest hRest _ params)
            (by omega)
          fun values => D.pure ?_
        simp +contextual [Value.allTemporaries, or_imp]

end

theorem Expr.lower_respects
    (e : Expr)
    (hStored : Identifier.StoredIn e.variables slots) :
    e.lower.Respects D slots e.cost := by
  rcases e.raw_eq with ⟨hLower, hVariables, hCost⟩
  rw [← hVariables] at hStored
  rw [← hLower, ← hCost]
  exact e.raw.lower_respects hStored

end Bracketry
