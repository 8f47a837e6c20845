import Bracketry.Proofs.Stmt.Allocation

/-
  This file follows which variables have been declared for
  certain at each point of a function.

  What is declared in a block, a bare branch or a bare loop
  body is not certain behind it.  A variable strays if it is
  mentioned where it is not certain that its declaration was
  executed.  All others are mentioned only where their slot
  is open.

  Main declarations:
    * `Stmt.declare` and `Stmt.strays`
    * `Stmt.declare_grows` and `Stmt.settles`
-/

namespace Bracketry

/-
  The variables declared so far, and those of them in sight
  whose declaration has been executed for certain.
-/
structure Declarations where
  certain : List Identifier
  all : List Identifier

namespace Declarations

/- Storing in a variable for the first time declares it. -/
def add
    (d : Declarations)
    (x : Identifier) : Declarations :=
  if x ∈ d.all then d else ⟨x :: d.certain, x :: d.all⟩

/- Behind a block, no more is certain than before. -/
def behind
    (d inner : Declarations) : Declarations :=
  ⟨d.certain, inner.all⟩

/- The variables that are not certain. -/
def missing
    (d : Declarations)
    (xs : List Identifier) : List Identifier :=
  xs.filter fun x => x ∉ d.certain

end Declarations

mutual

/- The declarations behind a statement. -/
def Stmt.declare : Stmt → Declarations → Declarations
| .sequence head tail, d =>
    d.behind (Stmt.declareAll tail (head.declare d))
| .ifThen _ body _, d => d.behind (body.declare d)
| .ifElse _ body other _, d =>
    d.behind (other.declare (d.behind (body.declare d)))
| .whileLoop _ body _, d => d.behind (body.declare d)
| .doWhile body _ _, d => body.declare d
| .assign (.var x) _ _, d => d.add x
| _, d => d

/- The declarations behind statements in a row. -/
def Stmt.declareAll : List Stmt → Declarations →
    Declarations
| [], d => d
| st :: rest, d => Stmt.declareAll rest (st.declare d)

end

mutual

/- Variables mentioned where they are not certain. -/
def Stmt.strays : Stmt → Declarations → List Identifier
| .sequence head tail, d =>
    head.strays d ++ Stmt.allStrays tail (head.declare d)
| .ifThen condition body _, d =>
    d.missing condition.variables ++ body.strays d
| .ifElse condition body other _, d =>
    d.missing condition.variables ++ body.strays d ++
      other.strays (d.behind (body.declare d))
| .whileLoop condition body _, d =>
    d.missing condition.variables ++ body.strays d
| .doWhile body condition _, d =>
    body.strays d ++
      (body.declare d).missing condition.variables
| .assign (.var x) value _, d =>
    d.missing value.variables ++
      (if x ∈ d.all then d.missing [x] else [])
| .assign target value _, d =>
    d.missing (target.variables ++ value.variables)
| .ret (some value) _ _, d => d.missing value.variables
| .evaluate call _, d => d.missing call.variables
| _, _ => []

/- The same of statements in a row. -/
def Stmt.allStrays : List Stmt → Declarations →
    List Identifier
| [], _ => []
| st :: rest, d =>
    st.strays d ++ Stmt.allStrays rest (st.declare d)

end

------------------------------------------------------------
-- Growth
------------------------------------------------------------

namespace Declarations

variable {d d₁ d₂ inner : Declarations}
variable {xs ys : List Identifier} {x : Identifier}

/- What is certain has been declared. -/
def Sound (d : Declarations) : Prop :=
  ∀ x ∈ d.certain, x ∈ d.all

/- Declared, but not for certain or not in sight. -/
def Hides
    (d : Declarations)
    (x : Identifier) : Prop :=
  x ∈ d.all ∧ x ∉ d.certain

/- How statements that mention `xs` declare. -/
structure Grows
    (xs : List Identifier)
    (d d' : Declarations) : Prop where
  all : ∀ x ∈ d.all, x ∈ d'.all
  certain : ∀ x ∈ d.certain, x ∈ d'.certain
  mentioned : ∀ x ∈ d'.all, x ∈ d.all ∨ x ∈ xs
  new : ∀ x ∈ d'.certain, x ∈ d.certain ∨ x ∉ d.all
  sound : d.Sound → d'.Sound

namespace Grows

theorem refl
    (xs : List Identifier)
    (d : Declarations) :
    Grows xs d d :=
  ⟨fun _ => id, fun _ => id, fun _ => .inl,
    fun _ => .inl, id⟩

theorem trans
    (h₁ : Grows xs d d₁)
    (h₂ : Grows ys d₁ d₂) :
    Grows (xs ++ ys) d d₂ where
  all := fun x hMem => h₂.all x (h₁.all x hMem)
  certain := fun x hMem => h₂.certain x (h₁.certain x hMem)
  mentioned := by
    intro x hMem
    rcases h₂.mentioned x hMem with hOld | hNew
    · rcases h₁.mentioned x hOld with hOld | hNew
      · exact .inl hOld
      · exact .inr (List.mem_append_left _ hNew)
    · exact .inr (List.mem_append_right _ hNew)
  new := by
    intro x hMem
    rcases h₂.new x hMem with hOld | hNew
    · exact h₁.new x hOld
    · exact .inr fun hIn => hNew (h₁.all x hIn)
  sound := fun hSound => h₂.sound (h₁.sound hSound)

theorem weaken
    (h : Grows xs d d₁)
    (hMem : ∀ x ∈ xs, x ∈ ys) :
    Grows ys d d₁ :=
  { h with
    mentioned := fun x hIn =>
      (h.mentioned x hIn).imp id (hMem x) }

/- Behind a block or branch. -/
theorem behind
    (h : Grows xs d inner) :
    Grows xs d (d.behind inner) where
  all := h.all
  certain := fun _ => id
  mentioned := h.mentioned
  new := fun _ => .inl
  sound := fun hSound x hMem => h.all x (hSound x hMem)

/- What is hidden stays hidden. -/
theorem hides
    (h : Grows xs d d₁)
    (hHides : d.Hides x) :
    d₁.Hides x := by
  rcases hHides with ⟨hAll, hCertain⟩
  refine ⟨h.all x hAll, fun hIn => ?_⟩
  rcases h.new x hIn with hOld | hNew
  · exact hCertain hOld
  · exact hNew hAll

theorem add
    (hMem : x ∈ xs) :
    Grows xs d (d.add x) := by
  unfold Declarations.add
  by_cases hOld : x ∈ d.all
  · simp only [hOld, if_true]
    exact refl xs d
  · simp only [hOld, if_false]
    refine ⟨fun _ => List.mem_cons_of_mem x,
      fun _ => List.mem_cons_of_mem x, ?_, ?_, ?_⟩
    · intro y hIn
      rcases List.mem_cons.mp hIn with rfl | hIn
      · exact .inr hMem
      · exact .inl hIn
    · intro y hIn
      rcases List.mem_cons.mp hIn with rfl | hIn
      · exact .inr hOld
      · exact .inl hIn
    · intro hSound y hIn
      rcases List.mem_cons.mp hIn with rfl | hIn
      · exact List.mem_cons_self
      · exact List.mem_cons_of_mem x (hSound y hIn)

end Grows

theorem mem_missing :
    x ∈ d.missing xs ↔ x ∈ xs ∧ x ∉ d.certain := by
  simp [missing]

theorem Sound.not_certain
    (hSound : d.Sound)
    (hNew : x ∉ d.all) :
    x ∉ d.certain :=
  fun hIn => hNew (hSound x hIn)

/- What is neither missing nor certain is not mentioned. -/
theorem not_mem_of_not_missing
    (hMissing : x ∉ d.missing xs)
    (hCertain : x ∉ d.certain) :
    x ∉ xs :=
  fun hMem => hMissing (mem_missing.mpr ⟨hMem, hCertain⟩)

end Declarations

namespace Stmt

mutual

/- Statements declare variables that they mention. -/
theorem declare_grows :
    ∀ (st : Stmt) (d : Declarations),
      Declarations.Grows st.variables d (st.declare d)
| .sequence head tail, d => by
    rw [Stmt.variables, Stmt.declare]
    exact ((declare_grows head d).trans
      (declareAll_grows tail (head.declare d))).behind
| .ifThen condition body line, d => by
    rw [Stmt.variables, Stmt.declare]
    exact ((declare_grows body d).weaken
      (fun _ => List.mem_append_right _)).behind
| .ifElse condition body other line, d => by
    rw [Stmt.variables, Stmt.declare]
    have hBody := (declare_grows body d).behind
    have hBoth := hBody.trans
      (declare_grows other (d.behind (body.declare d)))
    refine (hBoth.weaken ?_).behind
    intro x hMem
    rw [List.append_assoc]
    exact List.mem_append_right _ hMem
| .whileLoop condition body line, d => by
    rw [Stmt.variables, Stmt.declare]
    exact ((declare_grows body d).weaken
      (fun _ => List.mem_append_right _)).behind
| .doWhile body condition line, d => by
    rw [Stmt.variables, Stmt.declare]
    exact (declare_grows body d).weaken
      (fun _ => List.mem_append_left _)
| .assign (.var x) value line, d => by
    rw [Stmt.variables, Stmt.declare]
    exact .add (List.mem_append_left _
      (Place.root_mem_variables (.var x)))
| .assign (.element _ _ _) _ _, d => .refl _ d
| .assign (.member _ _ _ _) _ _, d => .refl _ d
| .empty _, d => .refl _ d
| .ret _ _ _, d => .refl _ d
| .breakLoop _, d => .refl _ d
| .evaluate _ _, d => .refl _ d

theorem declareAll_grows :
    ∀ (sts : List Stmt) (d : Declarations),
      Declarations.Grows (allVariables sts) d
        (declareAll sts d)
| [], d => .refl _ d
| st :: rest, d => by
    rw [Stmt.allVariables, Stmt.declareAll]
    exact (declare_grows st d).trans
      (declareAll_grows rest (st.declare d))

end

mutual

/- A hidden variable that does not stray is unused. -/
theorem not_mem_variables
    {x : Identifier} :
    ∀ (st : Stmt) (d : Declarations),
      d.Hides x → x ∉ st.strays d → x ∉ st.variables
| .sequence head tail, d, hHides, hStrays => by
    simp only [strays, List.mem_append, not_or] at hStrays
    simp only [Stmt.variables, List.mem_append, not_or]
    exact ⟨not_mem_variables head d hHides hStrays.1,
      not_mem_allVariables tail _
        ((declare_grows head d).hides hHides) hStrays.2⟩
| .ifThen condition body line, d, hHides, hStrays => by
    simp only [strays, List.mem_append, not_or] at hStrays
    simp only [Stmt.variables, List.mem_append, not_or]
    exact ⟨Declarations.not_mem_of_not_missing hStrays.1
      hHides.2, not_mem_variables body d hHides hStrays.2⟩
| .ifElse condition body other line, d, hHides,
    hStrays => by
    simp only [strays, List.mem_append, not_or] at hStrays
    simp only [Stmt.variables, List.mem_append, not_or]
    exact ⟨⟨Declarations.not_mem_of_not_missing hStrays.1.1
        hHides.2, not_mem_variables body d hHides
          hStrays.1.2⟩,
      not_mem_variables other _
        ((declare_grows body d).behind.hides hHides)
          hStrays.2⟩
| .whileLoop condition body line, d, hHides, hStrays => by
    simp only [strays, List.mem_append, not_or] at hStrays
    simp only [Stmt.variables, List.mem_append, not_or]
    exact ⟨Declarations.not_mem_of_not_missing hStrays.1
      hHides.2, not_mem_variables body d hHides hStrays.2⟩
| .doWhile body condition line, d, hHides, hStrays => by
    simp only [strays, List.mem_append, not_or] at hStrays
    simp only [Stmt.variables, List.mem_append, not_or]
    have hBehind := (declare_grows body d).hides hHides
    exact ⟨not_mem_variables body d hHides hStrays.1,
      Declarations.not_mem_of_not_missing hStrays.2
        hBehind.2⟩
| .assign (.var y) value line, d, hHides, hStrays => by
    simp only [strays, List.mem_append, not_or] at hStrays
    simp only [Stmt.variables, Place.variables,
      List.mem_append, not_or]
    refine ⟨fun hMem => ?_,
      Declarations.not_mem_of_not_missing hStrays.1
        hHides.2⟩
    cases List.mem_singleton.mp hMem
    rw [if_pos hHides.1] at hStrays
    exact Declarations.not_mem_of_not_missing hStrays.2
      hHides.2 hMem
| .assign (.element _ _ _) _ _, _, hHides, hStrays =>
    Declarations.not_mem_of_not_missing hStrays hHides.2
| .assign (.member _ _ _ _) _ _, _, hHides, hStrays =>
    Declarations.not_mem_of_not_missing hStrays hHides.2
| .ret (some _) _ _, _, hHides, hStrays =>
    Declarations.not_mem_of_not_missing hStrays hHides.2
| .evaluate _ _, _, hHides, hStrays =>
    Declarations.not_mem_of_not_missing hStrays hHides.2
| .empty _, _, _, _ => List.not_mem_nil
| .ret none _ _, _, _, _ => List.not_mem_nil
| .breakLoop _, _, _, _ => List.not_mem_nil

theorem not_mem_allVariables
    {x : Identifier} :
    ∀ (sts : List Stmt) (d : Declarations),
      d.Hides x → x ∉ allStrays sts d → x ∉ allVariables sts
| [], _, _, _ => List.not_mem_nil
| st :: rest, d, hHides, hStrays => by
    simp only [allStrays, List.mem_append, not_or]
      at hStrays
    simp only [allVariables, List.mem_append, not_or]
    exact ⟨not_mem_variables st d hHides hStrays.1,
      not_mem_allVariables rest _
        ((declare_grows st d).hides hHides) hStrays.2⟩

end

end Stmt

------------------------------------------------------------
-- First Mentions
------------------------------------------------------------

namespace Identifier

variable {x : Identifier} {xs ys : List Identifier}

/- No other variable shares the slot of this one. -/
def Alone
    (x : Identifier)
    (xs : List Identifier) : Prop :=
  ∀ y ∈ xs, y.storage = x.storage → y = x

theorem alone_append :
    Alone x (xs ++ ys) ↔ Alone x xs ∧ Alone x ys :=
  List.forall_mem_append

theorem Alone.apart
    (hAlone : Alone x xs)
    (hOut : x ∉ xs) :
    Apart x.storage xs := by
  intro y hMem hSame
  cases hAlone y hMem hSame
  exact hOut hMem

end Identifier

namespace Stmt

variable {x : Identifier} {d : Declarations}

/-
  What is shown of the first statement that mentions a
  variable: it declares it, and unless the slot is open
  behind it, the variable is hidden there.
-/
def Settles
    (x : Identifier)
    (st : Stmt)
    (d : Declarations) : Prop :=
  x ∈ (st.declare d).all ∧
    (st.Opens x.storage ∨
      (st.Houses x.storage ∧ x ∉ (st.declare d).certain))

theorem Settles.either
    {st : Stmt}
    (h : st.Settles x d) :
    st.Opens x.storage ∨ st.Houses x.storage :=
  h.2.imp id And.left

/- A statement that is first in a row. -/
theorem row_cases
    {st : Stmt}
    {sts : List Stmt}
    (hNew : x ∉ d.all)
    (hStrays : x ∉ allStrays sts (st.declare d))
    (hAlone : Identifier.Alone x st.variables)
    (hAlones : Identifier.Alone x (allVariables sts))
    (hMem : x ∈ st.variables ∨ x ∈ allVariables sts)
    (hFirst : x ∈ st.variables → st.Settles x d)
    (hRest :
      x ∉ (st.declare d).all → x ∈ allVariables sts →
        x ∈ (declareAll sts (st.declare d)).all ∧
          SomeHouses x.storage sts) :
    x ∈ (declareAll sts (st.declare d)).all ∧
      (st.Opens x.storage ∨
        (st.Houses x.storage ∧
          Identifier.Apart x.storage (allVariables sts)) ∨
        (Identifier.Apart x.storage st.variables ∧
          SomeHouses x.storage sts)) := by
  by_cases hIn : x ∈ st.variables
  · rcases hFirst hIn with ⟨hAll, hCases⟩
    refine ⟨(declareAll_grows sts _).all x hAll, ?_⟩
    rcases hCases with hOpens | ⟨hHouses, hCertain⟩
    · exact .inl hOpens
    · have hOut :=
        not_mem_allVariables sts _ ⟨hAll, hCertain⟩ hStrays
      exact .inr (.inl ⟨hHouses, hAlones.apart hOut⟩)
  · have hStill : x ∉ (st.declare d).all := fun hAll =>
      ((declare_grows st d).mentioned x hAll).elim hNew hIn
    rcases hRest hStill (hMem.resolve_left hIn) with
      ⟨hAll, hHouses⟩
    exact ⟨hAll, .inr (.inr ⟨hAlone.apart hIn, hHouses⟩)⟩

/- A body behind a condition without the variable. -/
theorem guarded_cases
    {condition : Expr}
    {body : Stmt}
    (hStrays : x ∉ d.missing condition.variables)
    (hCertain : x ∉ d.certain)
    (hAlone :
      Identifier.Alone x
        (condition.variables ++ body.variables))
    (hMem : x ∈ condition.variables ++ body.variables)
    (hBody :
      Identifier.Alone x body.variables →
        x ∈ body.variables → body.Settles x d) :
    x ∈ (body.declare d).all ∧
      Identifier.Apart x.storage condition.variables ∧
        (body.Opens x.storage ∨ body.Houses x.storage) := by
  rcases Identifier.alone_append.mp hAlone with
    ⟨hFirst, hInner⟩
  have hOut :=
    Declarations.not_mem_of_not_missing hStrays hCertain
  have hInside :=
    hBody hInner
      ((List.mem_append.mp hMem).resolve_left hOut)
  exact ⟨hInside.1, hFirst.apart hOut, hInside.either⟩

mutual

/- What does not stray is mentioned where it is open. -/
theorem settles :
    ∀ (st : Stmt) (d : Declarations),
      d.Sound → x ∉ d.all → x ∉ st.strays d →
      Identifier.Alone x st.variables → x ∈ st.variables →
      st.Settles x d
| .sequence head tail, d, hSound, hNew, hStrays, hAlone,
    hMem => by
    simp only [strays, List.mem_append, not_or] at hStrays
    rw [Stmt.variables] at hAlone hMem
    rcases Identifier.alone_append.mp hAlone with
      ⟨hFirst, hRest⟩
    rcases row_cases hNew hStrays.2 hFirst hRest
        (List.mem_append.mp hMem)
        (settles head d hSound hNew hStrays.1 hFirst)
        (fun hStill => settlesAll tail _
          ((declare_grows head d).sound hSound) hStill
            hStrays.2 hRest)
      with ⟨hAll, hCases⟩
    refine ⟨hAll, .inr ⟨?_, hSound.not_certain hNew⟩⟩
    rw [Houses]
    exact hCases
| .ifThen condition body line, d, hSound, hNew, hStrays,
    hAlone, hMem => by
    simp only [strays, List.mem_append, not_or] at hStrays
    rw [Stmt.variables] at hAlone hMem
    have hCertain := hSound.not_certain hNew
    rcases guarded_cases hStrays.1 hCertain hAlone hMem
        (settles body d hSound hNew hStrays.2) with
      ⟨hAll, hHouses⟩
    refine ⟨hAll, .inr ⟨?_, hCertain⟩⟩
    rw [Houses]
    exact hHouses
| .ifElse condition body other line, d, hSound, hNew,
    hStrays, hAlone, hMem => by
    simp only [strays, List.mem_append, not_or] at hStrays
    rw [Stmt.variables] at hAlone hMem
    rcases Identifier.alone_append.mp hAlone with
      ⟨hLeft, hOther⟩
    rcases Identifier.alone_append.mp hLeft with
      ⟨hFirst, hBody⟩
    have hCertain := hSound.not_certain hNew
    have hOut :=
      Declarations.not_mem_of_not_missing
        hStrays.1.1 hCertain
    have hGrows := (declare_grows body d).behind
    have hGrows' :=
      declare_grows other (d.behind (body.declare d))
    by_cases hIn : x ∈ body.variables
    · have hInside :=
        settles body d hSound hNew hStrays.1.2 hBody hIn
      have hHides : (d.behind (body.declare d)).Hides x :=
        ⟨hInside.1, hCertain⟩
      have hOut' :=
        not_mem_variables other _ hHides hStrays.2
      refine ⟨hGrows'.all x hInside.1, .inr ⟨?_, hCertain⟩⟩
      rw [Houses]
      exact ⟨hFirst.apart hOut,
        .inl ⟨hInside.either, hOther.apart hOut'⟩⟩
    · have hStill : x ∉ (d.behind (body.declare d)).all :=
        fun hAll =>
          (hGrows.mentioned x hAll).elim hNew hIn
      have hLast : x ∈ other.variables := by
        simp only [List.mem_append] at hMem
        exact hMem.resolve_left (fun h => h.elim hOut hIn)
      have hInside :=
        settles other _ (hGrows.sound hSound) hStill
        hStrays.2 hOther hLast
      refine ⟨hInside.1, .inr ⟨?_, hCertain⟩⟩
      rw [Houses]
      exact ⟨hFirst.apart hOut,
        .inr ⟨hBody.apart hIn, hInside.either⟩⟩
| .whileLoop condition body line, d, hSound, hNew, hStrays,
    hAlone, hMem => by
    simp only [strays, List.mem_append, not_or] at hStrays
    rw [Stmt.variables] at hAlone hMem
    have hCertain := hSound.not_certain hNew
    rcases guarded_cases hStrays.1 hCertain hAlone hMem
        (settles body d hSound hNew hStrays.2) with
      ⟨hAll, hHouses⟩
    refine ⟨hAll, .inr ⟨?_, hCertain⟩⟩
    rw [Houses]
    exact hHouses
| .doWhile body condition line, d, hSound, hNew, hStrays,
    hAlone, hMem => by
    simp only [strays, List.mem_append, not_or] at hStrays
    rw [Stmt.variables] at hAlone hMem
    rcases Identifier.alone_append.mp hAlone with
      ⟨hBody, hLast⟩
    have hGrows := declare_grows body d
    by_cases hIn : x ∈ body.variables
    · rcases settles body d hSound hNew hStrays.1 hBody hIn
        with ⟨hAll, hCases⟩
      refine ⟨hAll, ?_⟩
      rcases hCases with hOpens | ⟨hHouses, hCertain⟩
      · exact .inl hOpens
      · have hOut :=
          Declarations.not_mem_of_not_missing
            hStrays.2 hCertain
        refine .inr ⟨?_, hCertain⟩
        rw [Houses]
        exact ⟨hHouses, hLast.apart hOut⟩
    · -- behind a body that does not mention it, it is not
      -- certain
      have hStill : x ∉ (body.declare d).certain :=
        fun hCertain =>
          (hGrows.mentioned x
            (hGrows.sound hSound x hCertain)).elim hNew hIn
      have hOut :=
        Declarations.not_mem_of_not_missing hStrays.2 hStill
      exact ((List.mem_append.mp hMem).elim hIn hOut).elim
| .assign (.var y) value line, d, hSound, hNew, hStrays,
    hAlone, hMem => by
    simp only [strays, List.mem_append, not_or] at hStrays
    rw [Stmt.variables] at hAlone hMem
    rcases Identifier.alone_append.mp hAlone with
      ⟨_, hValue⟩
    have hCertain := hSound.not_certain hNew
    have hOut :=
      Declarations.not_mem_of_not_missing hStrays.1 hCertain
    cases List.mem_singleton.mp
      ((List.mem_append.mp hMem).resolve_right hOut)
    refine ⟨?_, .inl ⟨rfl, hValue.apart hOut⟩⟩
    rw [declare, Declarations.add, if_neg hNew]
    exact List.mem_cons_self
| .assign (.element _ _ _) _ _, _, hSound, hNew, hStrays,
    _, hMem =>
      absurd hMem
        (Declarations.not_mem_of_not_missing hStrays
        (hSound.not_certain hNew))
| .assign (.member _ _ _ _) _ _, _, hSound, hNew, hStrays,
    _, hMem =>
      absurd hMem
        (Declarations.not_mem_of_not_missing hStrays
        (hSound.not_certain hNew))
| .ret (some _) _ _, _, hSound, hNew, hStrays, _, hMem =>
    absurd hMem (Declarations.not_mem_of_not_missing hStrays
      (hSound.not_certain hNew))
| .evaluate _ _, _, hSound, hNew, hStrays, _, hMem =>
    absurd hMem (Declarations.not_mem_of_not_missing hStrays
      (hSound.not_certain hNew))
| .empty _, _, _, _, _, _, hMem =>
    absurd hMem List.not_mem_nil
| .ret none _ _, _, _, _, _, _, hMem =>
    absurd hMem List.not_mem_nil
| .breakLoop _, _, _, _, _, _, hMem =>
    absurd hMem List.not_mem_nil

theorem settlesAll :
    ∀ (sts : List Stmt) (d : Declarations),
      d.Sound → x ∉ d.all → x ∉ allStrays sts d →
      Identifier.Alone x (allVariables sts) →
        x ∈ allVariables sts →
      x ∈ (declareAll sts d).all ∧ SomeHouses x.storage sts
| [], _, _, _, _, _, hMem => absurd hMem List.not_mem_nil
| st :: rest, d, hSound, hNew, hStrays, hAlone, hMem => by
    simp only [allStrays, List.mem_append, not_or]
      at hStrays
    rw [allVariables] at hAlone hMem
    rcases Identifier.alone_append.mp hAlone with
      ⟨hFirst, hRest⟩
    rw [declareAll, SomeHouses]
    exact row_cases hNew hStrays.2 hFirst hRest
      (List.mem_append.mp hMem)
      (settles st d hSound hNew hStrays.1 hFirst)
      (fun hStill => settlesAll rest _
        ((declare_grows st d).sound hSound) hStill
          hStrays.2 hRest)

end

end Stmt

end Bracketry
