import Bracketry.Proofs.Scope

/-
  This file follows the frames of one function while its
  body is read, and shows that no two of its variables share
  a slot.

  A variable is bound to the frame it is declared in, and
  the names in a frame are different.  Frames are never
  thrown away, so the last scope of a function has all its
  variables.

  Main declarations:
    * `Scope.Local` and `Scope.Holds`
    * `Scope.Local.inSight_of_declare`
    * `Scope.Local.eq_of_storage`
-/

namespace Bracketry

variable {x y : Identifier} {k : Nat}

namespace Identifier

variable {n : Nat} {c : Char}

/- A text without dots starts with no dot. -/
theorem nil_of_dot
    {between first second : List Char}
    (hFirst : '.' ∉ first)
    (hEq : '.' :: first = between ++ '.' :: second) :
    between = [] := by
  cases between with
  | nil => rfl
  | cons c rest =>
      simp only [List.cons_append, List.cons.injEq] at hEq
      rw [hEq.2] at hFirst
      simp at hFirst

/- Equal in front of the last dot and behind it. -/
theorem eq_of_dotted
    {a b first second : String}
    (hFirst : '.' ∉ first.toList)
    (hSecond : '.' ∉ second.toList)
    (hEq : a ++ "." ++ first = b ++ "." ++ second) :
    a = b ∧ first = second := by
  have hChars :
      a.toList ++ '.' :: first.toList =
        b.toList ++ '.' :: second.toList := by
    simpa using congrArg String.toList hEq
  have hBoth :
      a.toList = b.toList ∧
        first.toList = second.toList := by
    rcases List.append_eq_append_iff.mp hChars with
      ⟨between, hLeft, hRight⟩ | ⟨between, hLeft, hRight⟩
    · cases nil_of_dot hFirst hRight
      simp_all
    · cases nil_of_dot hSecond hRight
      simp_all
  exact ⟨String.toList_inj.mp hBoth.1,
    String.toList_inj.mp hBoth.2⟩

/- Numbers are written in digits. -/
theorem isDigit_of_mem
    (hMem : c ∈ (toString n).toList) :
    c.isDigit = true := by
  rw [Nat.toString_eq_repr, Nat.toList_repr] at hMem
  exact Nat.isDigit_of_mem_toDigits (by decide)
    (by decide) hMem

theorem dot_not_mem_number
    (n : Nat) :
    '.' ∉ (toString n).toList :=
  fun hMem => absurd (isDigit_of_mem hMem) (by decide)

theorem number_inj
    {m n : Nat}
    (hEq : toString m = toString n) :
    m = n := by
  rw [Nat.toString_eq_repr, Nat.toString_eq_repr] at hEq
  have hDigits := congrArg String.toList hEq
  rw [Nat.toList_repr, Nat.toList_repr] at hDigits
  have hValue := congrArg (Nat.ofDigitChars 10 · 0) hDigits
  simpa using hValue

/- A text with a letter in it is not a number. -/
theorem number_ne_word
    {word : String}
    (hMem : c ∈ word.toList)
    (hLetter : ¬ c.isDigit = true)
    (n : Nat) :
    toString n ≠ word := by
  rintro rfl
  exact hLetter (isDigit_of_mem hMem)

theorem number_ne_arg :
    ∀ n : Nat, toString n ≠ "arg" :=
  number_ne_word (c := 'a') (by decide) (by decide)

/- The bindings of the variables of a function. -/
def BoundIn
    (function : String)
    (x : Identifier) : Prop :=
  x.binding = .argument ∨ ∃ k, x.binding = .block function k

/- The slot of a variable, up to the last dot. -/
theorem storage_of_argument
    (hArgument : x.binding = .argument) :
    x.storage = "%" ++ x.name ++ "." ++ "arg" := by
  unfold storage
  rw [hArgument]
  exact (String.append_assoc : _ ++ "." ++ "arg" = _).symm

theorem storage_of_block
    {function : String}
    (hBlock : x.binding = .block function k) :
    x.storage =
      "%" ++ x.name ++ "." ++ function ++ "." ++
        toString k := by
  unfold storage
  rw [hBlock]

/- In one function, a slot tells the name and the frame. -/
theorem same_of_storage
    {function : String}
    (hFirst : x.BoundIn function)
    (hSecond : y.BoundIn function)
    (hEq : x.storage = y.storage) :
    x.Same y := by
  have hArg : '.' ∉ "arg".toList := by decide
  rcases hFirst with hx | ⟨k, hx⟩ <;> rcases hSecond with
    hy | ⟨l, hy⟩
  · rw [storage_of_argument hx, storage_of_argument hy]
      at hEq
    have hName := (eq_of_dotted hArg hArg hEq).1
    exact ⟨String.append_right_inj _ |>.mp hName,
      hx.trans hy.symm⟩
  · rw [storage_of_argument hx, storage_of_block hy] at hEq
    have hLast :=
      (eq_of_dotted hArg (dot_not_mem_number l) hEq).2
    exact absurd hLast.symm (number_ne_arg l)
  · rw [storage_of_block hx, storage_of_argument hy] at hEq
    have hLast :=
      (eq_of_dotted (dot_not_mem_number k) hArg hEq).2
    exact absurd hLast (number_ne_arg k)
  · rw [storage_of_block hx, storage_of_block hy] at hEq
    rcases eq_of_dotted (dot_not_mem_number k)
      (dot_not_mem_number l) hEq with ⟨hFront, hLast⟩
    have hNumber : k = l := number_inj hLast
    simp only [String.append_left_inj,
      String.append_right_inj] at hFront
    exact ⟨hFront, by rw [hx, hy, hNumber]⟩

end Identifier

------------------------------------------------------------
-- Frames that are Kept
------------------------------------------------------------

namespace Scope

variable {s s₁ s' : Scope} {x : Identifier} {base : Nat}

/- A frame with one variable more. -/
theorem getElem?_declared
    {frames : List Frame}
    {frame : Frame}
    (x : Identifier)
    (hFrame : frames[k]? = some frame) :
    (frames.modify k fun frame =>
      { frame with declared := x :: frame.declared })[k]? =
      some { frame with
        declared := x :: frame.declared } := by
  rw [List.getElem?_modify, hFrame]
  simp

/- A new variable is added to the current frame. -/
theorem declare_eq_ok
    (hOk : s.declare x = .ok s') :
    ∃ k,
      s.current = some k ∧
        (∀ frame, s.frames[k]? = some frame →
          ∀ y ∈ frame.declared, y.name ≠ x.name) ∧
        s' = { s with
          frames := s.frames.modify k fun frame =>
            { frame with
              declared := x :: frame.declared } } := by
  rw [declare_eq] at hOk
  split at hOk
  · cases hOk
  · rename_i k hCurrent
    split at hOk
    · cases hOk
    · rename_i hFind
      cases hOk
      refine ⟨k, hCurrent, ?_, rfl⟩
      intro frame hFrame y hMem hName
      rw [hFrame, Option.bind_some, Frame.find?] at hFind
      exact absurd hName
        (by simpa using List.find?_eq_none.mp hFind y hMem)

/-
  Frames are added behind the others, and variables to the
  current frame, which is still the same.
-/
structure Extends (s s' : Scope) : Prop where
  current : s'.current = s.current
  frames :
    ∀ (k : Nat) (frame : Frame), s.frames[k]? = some frame →
      ∃ frame' : Frame, s'.frames[k]? = some frame' ∧
        frame'.parent = frame.parent ∧
        ∀ x ∈ frame.declared, x ∈ frame'.declared
  others :
    ∀ (k : Nat) (frame : Frame), s.frames[k]? = some frame →
      s.current ≠ some k → s'.frames[k]? = some frame

namespace Extends

theorem refl
    (s : Scope) :
    s.Extends s :=
  ⟨rfl, fun _ frame hFrame =>
    ⟨frame, hFrame, rfl, fun _ => id⟩,
    fun _ _ hFrame _ => hFrame⟩

theorem trans
    (h₁ : s.Extends s₁)
    (h₂ : s₁.Extends s') :
    s.Extends s' where
  current := h₂.current.trans h₁.current
  frames := by
    intro k frame hFrame
    rcases h₁.frames k frame hFrame with
      ⟨frame₁, hFrame₁, hParent₁, hMem₁⟩
    rcases h₂.frames k frame₁ hFrame₁ with
      ⟨frame₂, hFrame₂, hParent₂, hMem₂⟩
    exact ⟨frame₂, hFrame₂, hParent₂.trans hParent₁,
      fun x hMem => hMem₂ x (hMem₁ x hMem)⟩
  others := by
    intro k frame hFrame hOther
    refine h₂.others k frame
      (h₁.others k frame hFrame hOther) ?_
    rw [h₁.current]
    exact hOther

theorem declare
    (hOk : s.declare x = .ok s') :
    s.Extends s' := by
  rcases declare_eq_ok hOk with ⟨k, hCurrent, -, rfl⟩
  refine ⟨rfl, ?_, ?_⟩
  · intro l frame hFrame
    refine ⟨_, by rw [List.getElem?_modify, hFrame]; rfl,
      ?_⟩
    split
    · exact ⟨rfl, fun _ => List.mem_cons_of_mem x⟩
    · exact ⟨rfl, fun _ => id⟩
  · intro l frame hFrame hOther
    have hNe : k ≠ l := fun hEq => hOther (hEq ▸ hCurrent)
    rw [List.getElem?_modify, hFrame]
    simp [hNe]

/- A frame that is opened is behind all others. -/
theorem getElem?_enter
    {frame : Frame}
    (hFrame : s.frames[k]? = some frame) :
    s.enter.2.frames[k]? = some frame := by
  change (s.frames ++ [_])[k]? = some frame
  rw [List.getElem?_append_left, hFrame]
  exact (List.getElem?_eq_some_iff.mp hFrame).1

theorem getElem?_opened
    (s : Scope) :
    s.enter.2.frames[s.frames.length]? =
      some ⟨s.current, []⟩ :=
  List.getElem?_concat_length

/- A block declares nothing in the frames around it. -/
theorem getElem?_block
    (hInside : s.enter.2.Extends s')
    {frame : Frame}
    (hFrame : s.frames[k]? = some frame) :
    s'.leave.frames[k]? = some frame := by
  refine hInside.others k frame (getElem?_enter hFrame) ?_
  intro hEq
  have hLt := (List.getElem?_eq_some_iff.mp hFrame).1
  exact absurd (Option.some.inj hEq) (Nat.ne_of_gt hLt)

/- Behind a block, the frame around it is current again. -/
theorem block
    (hInside : s.enter.2.Extends s') :
    s.Extends s'.leave := by
  rcases hInside.frames _ _ (getElem?_opened s) with
    ⟨frame', hFrame', hParent, -⟩
  refine ⟨?_, ?_, ?_⟩
  · change (s'.current.bind fun k =>
      s'.frames[k]?.bind (·.parent)) = _
    have hCurrent : s'.current = some s.frames.length :=
      hInside.current
    rw [hCurrent, Option.bind_some, hFrame',
      Option.bind_some, hParent]
  · intro k frame hFrame
    exact ⟨frame, getElem?_block hInside hFrame, rfl,
      fun _ => id⟩
  · exact fun k frame hFrame _ =>
      getElem?_block hInside hFrame

end Extends

/- The current frame and the frames around it. -/
inductive Open (s : Scope) : Nat → Prop
| current {k : Nat}
    (hCurrent : s.current = some k) :
    Open s k
| outer {k outer : Nat} {frame : Frame}
    (hOpen : Open s k)
    (hFrame : s.frames[k]? = some frame)
    (hParent : frame.parent = some outer) :
    Open s outer

/- A variable of an open frame, hidden by another or not. -/
def InSight
    (s : Scope)
    (x : Identifier) : Prop :=
  ∃ k frame, s.Open k ∧ s.frames[k]? = some frame ∧
    x ∈ frame.declared

theorem inSight_of_lookup
    {name : String}
    (hLookup : s.lookup name = some (.var x)) :
    s.InSight x := by
  have hOutward :
      ∀ (steps : Nat) (start : Option Nat) (frame : Frame),
        (∀ k, start = some k → s.Open k) →
        frame ∈ outward s.frames steps start →
        ∃ k, s.Open k ∧ s.frames[k]? = some frame := by
    intro steps
    induction steps with
    | zero =>
        exact fun _ _ _ hMem => absurd hMem List.not_mem_nil
    | succ steps ih =>
        intro start frame hStart hMem
        cases start with
        | none => cases hMem
        | some k =>
            have hOpen := hStart k rfl
            unfold outward at hMem
            split at hMem
            · cases hMem
            · rename_i found hFound
              rcases List.mem_cons.mp hMem with rfl | hOuter
              · exact ⟨k, hOpen, hFound⟩
              · exact ih found.parent frame
                  (fun outer hParent =>
                    .outer hOpen hFound hParent) hOuter
  unfold Scope.lookup at hLookup
  split at hLookup
  · rename_i y hVar
    cases hLookup
    rcases List.exists_of_findSome?_eq_some hVar with
      ⟨frame, hFrame, hFind⟩
    rcases hOutward _ _ frame (fun _ hAt => .current hAt)
      hFrame with
      ⟨k, hOpen, hAt⟩
    exact ⟨k, frame, hOpen, hAt,
      List.mem_of_find?_eq_some hFind⟩
  · simp at hLookup

------------------------------------------------------------
-- Frames of a Function
------------------------------------------------------------

/-
  A frame of the function whose first frame is `base`: its
  variables are bound to it, and their names are different.
-/
structure FrameOf
    (base : Nat)
    (function : String)
    (k : Nat)
    (frame : Frame) : Prop where
  bound :
    ∀ x ∈ frame.declared,
      (x.binding = .argument ∧ k = base) ∨
        x.binding = .block function k
  names :
    ∀ x ∈ frame.declared, ∀ y ∈ frame.declared,
      x.name = y.name → x = y
  parent : ∀ outer, frame.parent = some outer →
    base ≤ outer ∧ outer < k

/- In the function whose first frame is `base`. -/
structure Local
    (base : Nat)
    (function : String)
    (s : Scope) : Prop where
  current :
    ∃ k frame, s.current = some k ∧ base ≤ k ∧
      s.frames[k]? = some frame
  frames :
    ∀ k frame, base ≤ k → s.frames[k]? = some frame →
      FrameOf base function k frame

/- A variable in a frame of that function. -/
def Holds
    (base : Nat)
    (s : Scope)
    (x : Identifier) : Prop :=
  ∃ k frame, base ≤ k ∧ s.frames[k]? = some frame ∧
    x ∈ frame.declared

theorem Extends.holds
    (hExtends : s.Extends s')
    (hHolds : s.Holds base x) :
    s'.Holds base x := by
  rcases hHolds with ⟨k, frame, hBase, hFrame, hMem⟩
  rcases hExtends.frames k frame hFrame with
    ⟨frame', hFrame', -, hKept⟩
  exact ⟨k, frame', hBase, hFrame', hKept x hMem⟩

/- A frame that is opened holds nothing yet. -/
theorem holds_of_enter
    (hHolds : s.enter.2.Holds base x) :
    s.Holds base x := by
  rcases hHolds with ⟨k, frame, hBase, hFrame, hMem⟩
  change (s.frames ++ [⟨s.current, []⟩])[k]? =
    some frame at hFrame
  rw [List.getElem?_append] at hFrame
  split at hFrame
  · exact ⟨k, frame, hBase, hFrame, hMem⟩
  · rw [List.getElem?_singleton] at hFrame
    split at hFrame
    · cases hFrame
      cases hMem
    · cases hFrame

/- Behind all frames there is nothing. -/
theorem not_holds_length
    (s : Scope)
    (x : Identifier) :
    ¬ s.Holds s.frames.length x := by
  rintro ⟨k, frame, hBase, hFrame, -⟩
  have hLt := (List.getElem?_eq_some_iff.mp hFrame).1
  omega

/- A variable that is declared changes frames only. -/
theorem globals_of_declare
    (hOk : s.declare x = .ok s') :
    s'.globals = s.globals := by
  rcases declare_eq_ok hOk with ⟨l, -, -, rfl⟩
  rfl

/- Only the variable that is declared is added. -/
theorem holds_of_declare
    (hOk : s.declare y = .ok s')
    (hHolds : s'.Holds base x) :
    x = y ∨ s.Holds base x := by
  rcases declare_eq_ok hOk with ⟨l, -, -, rfl⟩
  rcases hHolds with ⟨k, frame, hBase, hFrame, hMem⟩
  rw [List.getElem?_modify] at hFrame
  rcases Option.map_eq_some_iff.mp hFrame with
    ⟨old, hOld, hEq⟩
  split at hEq
  · rw [← hEq] at hMem
    exact (List.mem_cons.mp hMem).imp id
      fun hKept => ⟨k, old, hBase, hOld, hKept⟩
  · rw [← hEq] at hMem
    exact .inr ⟨k, old, hBase, hOld, hMem⟩

namespace Local

variable {base : Nat} {function : String}

/- The first frame is opened outside of all others. -/
theorem start
    (hOutside : s.current = none)
    (function : String) :
    s.enter.2.Local s.frames.length function := by
  refine ⟨⟨_, _, rfl, Nat.le_refl _,
    Extends.getElem?_opened s⟩, ?_⟩
  intro k frame hBase hFrame
  change (s.frames ++ [⟨s.current, []⟩])[k]? =
    some frame at hFrame
  rw [List.getElem?_append_right hBase,
    List.getElem?_singleton] at hFrame
  split at hFrame
  · cases hFrame
    refine ⟨by simp, by simp, ?_⟩
    intro outer hOuter
    exact absurd (hOutside.symm.trans hOuter) nofun
  · cases hFrame

theorem enter
    (hLocal : s.Local base function) :
    s.enter.2.Local base function := by
  rcases hLocal.current with
    ⟨k, found, hCurrent, hBase, hFound⟩
  have hOpened : base ≤ s.frames.length :=
    Nat.le_of_lt (Nat.lt_of_le_of_lt hBase
      (List.getElem?_eq_some_iff.mp hFound).1)
  refine ⟨⟨_, _, rfl, hOpened, Extends.getElem?_opened s⟩,
    ?_⟩
  intro l frame hFrameBase hFrame
  change (s.frames ++ [⟨s.current, []⟩])[l]? =
    some frame at hFrame
  rw [List.getElem?_append] at hFrame
  split at hFrame
  · exact hLocal.frames l frame hFrameBase hFrame
  · rw [List.getElem?_singleton] at hFrame
    split at hFrame
    · cases hFrame
      refine ⟨by simp, by simp, ?_⟩
      intro outer hOuter
      cases hCurrent.symm.trans hOuter
      have hLt := (List.getElem?_eq_some_iff.mp hFound).1
      exact ⟨hBase, by omega⟩
    · cases hFrame

/- Out of a block that was entered. -/
theorem leave
    (hLocal : s.Local base function)
    (hInside : s'.Local base function)
    (hExtends : s.Extends s'.leave) :
    s'.leave.Local base function := by
  refine ⟨?_, hInside.frames⟩
  rcases hLocal.current with
    ⟨k, found, hCurrent, hBase, hFound⟩
  rcases hExtends.frames k found hFound with
    ⟨frame', hFrame', -⟩
  exact ⟨k, frame', hExtends.current.trans hCurrent,
    hBase, hFrame'⟩

theorem declare
    (hLocal : s.Local base function)
    (hBound :
      ∀ k, s.current = some k →
        (x.binding = .argument ∧ k = base) ∨
          x.binding = .block function k)
    (hOk : s.declare x = .ok s') :
    s'.Local base function ∧ s'.Holds base x := by
  rcases hLocal.current with
    ⟨k, found, hCurrent, hBase, hFound⟩
  rcases declare_eq_ok hOk with ⟨l, hCurrent', hNew, rfl⟩
  cases hCurrent.symm.trans hCurrent'
  have hAdded := getElem?_declared x hFound
  refine ⟨⟨⟨k, _, hCurrent, hBase, hAdded⟩, ?_⟩,
    ⟨k, _, hBase, hAdded, List.mem_cons_self⟩⟩
  intro l frame hFrameBase hFrame
  by_cases hSame : k = l
  · subst hSame
    cases hAdded.symm.trans hFrame
    have hOld := hLocal.frames k found hBase hFound
    refine ⟨?_, ?_, hOld.parent⟩
    · exact List.forall_mem_cons.mpr
        ⟨hBound k hCurrent, hOld.bound⟩
    · intro y hY z hZ hName
      rcases List.mem_cons.mp hY with rfl | hOldY <;>
        rcases List.mem_cons.mp hZ with rfl | hOldZ
      · rfl
      · exact absurd hName.symm (hNew found hFound z hOldZ)
      · exact absurd hName (hNew found hFound y hOldY)
      · exact hOld.names y hOldY z hOldZ hName
  · rw [List.getElem?_modify] at hFrame
    simp only [hSame, if_false, id_map'] at hFrame
    exact hLocal.frames l frame hFrameBase hFrame

/- Open frames are frames of the function. -/
theorem frame_of_open
    (hLocal : s.Local base function)
    (hOpen : s.Open k) :
    base ≤ k ∧ ∃ frame, s.frames[k]? = some frame := by
  induction hOpen with
  | current hCurrent =>
      rcases hLocal.current with
        ⟨l, found, hAt, hBase, hFound⟩
      cases hAt.symm.trans hCurrent
      exact ⟨hBase, found, hFound⟩
  | @outer k outer frame _ hFrame hParent ih =>
      have hLt := (List.getElem?_eq_some_iff.mp hFrame).1
      rcases (hLocal.frames k frame ih.1 hFrame).parent
        outer hParent with ⟨hBase, hBefore⟩
      exact ⟨hBase, _,
        List.getElem?_eq_getElem (Nat.lt_trans hBefore hLt)⟩

theorem holds_of_inSight
    (hLocal : s.Local base function)
    (hSight : s.InSight x) :
    s.Holds base x := by
  rcases hSight with ⟨k, frame, hOpen, hFrame, hMem⟩
  exact ⟨k, frame, (hLocal.frame_of_open hOpen).1,
    hFrame, hMem⟩

/- A variable that is found belongs to the function. -/
theorem holds_of_lookup
    (hLocal : s.Local base function)
    {name : String}
    (hLookup : s.lookup name = some (.var x)) :
    s.Holds base x :=
  hLocal.holds_of_inSight (inSight_of_lookup hLookup)

/- What is open depends on parents only. -/
theorem open_of_parents
    (hLocal : s.Local base function)
    (hCurrent : s'.current = s.current)
    (hParents :
      ∀ (k : Nat) (frame : Frame), s.frames[k]? =
        some frame → ∃ frame', s'.frames[k]? = some frame' ∧
          frame'.parent = frame.parent)
    (hOpen : s'.Open k) :
    s.Open k := by
  induction hOpen with
  | current hAt => exact .current (hCurrent.symm.trans hAt)
  | outer _ hFrame hParent ih =>
      rcases (hLocal.frame_of_open ih).2 with ⟨old, hOld⟩
      rcases hParents _ old hOld with ⟨new, hNew, hSame⟩
      cases hNew.symm.trans hFrame
      exact .outer ih hOld (hSame.symm.trans hParent)

/- Frames that are kept keep what is seen. -/
theorem inSight_of_frames
    (hLocal : s.Local base function)
    (hCurrent : s'.current = s.current)
    (hFrames :
      ∀ (k : Nat) (frame : Frame), s.frames[k]? =
        some frame → s'.frames[k]? = some frame)
    (hSight : s'.InSight x) :
    s.InSight x := by
  rcases hSight with ⟨k, frame, hAt, hFrame, hMem⟩
  have hWas := hLocal.open_of_parents hCurrent
    (fun k frame hFrame =>
      ⟨frame, hFrames k frame hFrame, rfl⟩) hAt
  rcases (hLocal.frame_of_open hWas).2 with ⟨old, hOld⟩
  cases (hFrames _ old hOld).symm.trans hFrame
  exact ⟨k, frame, hWas, hOld, hMem⟩

/- Into a block, the same variables are seen. -/
theorem inSight_of_enter
    (hLocal : s.Local base function)
    (hSight : s.enter.2.InSight x) :
    s.InSight x := by
  have hOpen :
      ∀ {k : Nat}, s.enter.2.Open k → k = s.frames.length ∨
        s.Open k := by
    intro k hOpen
    induction hOpen with
    | current hAt => exact .inl (Option.some.inj hAt).symm
    | outer _ hFrame hParent ih =>
        rcases ih with rfl | hWas
        · cases (Extends.getElem?_opened s).symm.trans
            hFrame
          exact .inr (.current hParent)
        · rcases (hLocal.frame_of_open hWas).2 with
            ⟨old, hOld⟩
          cases (Extends.getElem?_enter hOld).symm.trans
            hFrame
          exact .inr (.outer hWas hOld hParent)
  rcases hSight with ⟨k, frame, hAt, hFrame, hMem⟩
  rcases hOpen hAt with rfl | hWas
  · cases (Extends.getElem?_opened s).symm.trans hFrame
    cases hMem
  · rcases (hLocal.frame_of_open hWas).2 with ⟨old, hOld⟩
    cases (Extends.getElem?_enter hOld).symm.trans hFrame
    exact ⟨k, frame, hWas, hOld, hMem⟩

/- Only the variable that is declared comes into sight. -/
theorem inSight_of_declare
    (hLocal : s.Local base function)
    (hOk : s.declare y = .ok s')
    (hSight : s'.InSight x) :
    x = y ∨ s.InSight x := by
  have hExtends := Extends.declare hOk
  have hParents :
      ∀ (k : Nat) (frame : Frame), s.frames[k]? =
        some frame → ∃ frame', s'.frames[k]? = some frame' ∧
          frame'.parent = frame.parent := by
    intro k frame hFrame
    rcases hExtends.frames k frame hFrame with
      ⟨new, hNew, hSame, -⟩
    exact ⟨new, hNew, hSame⟩
  rcases hSight with ⟨k, frame, hAt, hFrame, hMem⟩
  have hWas :=
    hLocal.open_of_parents hExtends.current hParents hAt
  rcases (hLocal.frame_of_open hWas).2 with ⟨old, hOld⟩
  rcases declare_eq_ok hOk with ⟨l, -, -, rfl⟩
  rw [List.getElem?_modify, hOld] at hFrame
  have hEq := Option.some.inj hFrame
  split at hEq
  · rw [← hEq] at hMem
    rcases List.mem_cons.mp hMem with hNew | hKept
    · exact .inl hNew
    · exact .inr ⟨k, old, hWas, hOld, hKept⟩
  · rw [← hEq] at hMem
    exact .inr ⟨k, old, hWas, hOld, hMem⟩

/- What is declared was not known to the function before. -/
theorem not_holds_of_declare
    (hLocal : s.Local base function)
    (hBound :
      ∀ k, s.current = some k →
        x.binding = .block function k)
    (hOk : s.declare x = .ok s') :
    ¬ s.Holds base x := by
  rintro ⟨k, frame, hBase, hFrame, hMem⟩
  rcases declare_eq_ok hOk with ⟨l, hCurrent, hNew, -⟩
  have hBlock := hBound l hCurrent
  rcases (hLocal.frames k frame hBase hFrame).bound x
    hMem with
    ⟨hArgument, -⟩ | hSame
  · cases hBlock.symm.trans hArgument
  · cases hBlock.symm.trans hSame
    exact hNew frame hFrame x hMem rfl

theorem boundIn
    (hLocal : s.Local base function)
    (hHolds : s.Holds base x) :
    x.BoundIn function := by
  rcases hHolds with ⟨k, frame, hBase, hFrame, hMem⟩
  exact ((hLocal.frames k frame hBase hFrame).bound x
    hMem).imp And.left fun hBlock => ⟨k, hBlock⟩

/- No two variables of a function share a slot. -/
theorem eq_of_storage
    (hLocal : s.Local base function)
    (hFirst : s.Holds base x)
    (hSecond : s.Holds base y)
    (hEq : x.storage = y.storage) :
    x = y := by
  have hSame : x.Same y :=
    Identifier.same_of_storage (hLocal.boundIn hFirst)
      (hLocal.boundIn hSecond) hEq
  rcases hFirst with ⟨k, frame, hBase, hFrame, hMem⟩
  rcases hSecond with ⟨l, frame', hBase', hFrame', hMem'⟩
  have hOf := hLocal.frames k frame hBase hFrame
  have hBound := hOf.bound x hMem
  have hBound' :=
    (hLocal.frames l frame' hBase' hFrame').bound y hMem'
  have hNumber : k = l := by
    rcases hBound with ⟨hArgument, rfl⟩ | hBlock <;>
      rcases hBound' with ⟨hArgument', rfl⟩ | hBlock'
    · rfl
    · cases hArgument.symm.trans (hSame.2.trans hBlock')
    · cases hBlock.symm.trans (hSame.2.trans hArgument')
    · cases hBlock.symm.trans (hSame.2.trans hBlock')
      rfl
  subst hNumber
  cases hFrame.symm.trans hFrame'
  exact hOf.names x hMem y hMem' hSame.1

end Local

end Scope

end Bracketry
