import Bracketry.Proofs.Stmt.Reading

/-
  This file says what reading a statement changes, from any
  state that it may be read in.

  Behind a statement the same frame is open, in the same
  function and in as many loops as before.  Of the frames
  that were there, only the open one has changed: it has
  gained the variables that the statement declares outside
  of braces.
-/

namespace Bracketry

namespace Frame

/- A frame with more variables, in their order. -/
def extend
    (f : Frame)
    (xs : List Identifier) : Frame :=
  { f with declared := xs.reverse ++ f.declared }

theorem extend_extend
    (f : Frame)
    (xs ys : List Identifier) :
    (f.extend xs).extend ys = f.extend (xs ++ ys) := by
  simp [extend]

end Frame

/-
  The second context is the first one but for the variables
  that the open frame has gained.  Frames may have been
  added behind those that were there, and every name that
  was bound in a frame is bound as before.
-/
structure Context.Gains
    (c c' : Context)
    (xs : List Identifier) : Prop where
  current : c'.scope.current = c.scope.current
  globals : c'.scope.globals = c.scope.globals
  function : c'.function = c.function
  loopDepth : c'.loopDepth = c.loopDepth
  gained :
    ∀ (k : Nat) (frame : Frame), c.scope.current = some k →
      c.scope.frames[k]? = some frame →
      c'.scope.frames[k]? = some (frame.extend xs) ∧
        ∀ name y, frame.find? name = some y →
          (frame.extend xs).find? name = some y
  others :
    ∀ (k : Nat) (frame : Frame), c.scope.current ≠ some k →
      c.scope.frames[k]? = some frame →
      c'.scope.frames[k]? = some frame

namespace Context.Gains

variable {c c₁ c' : Context} {xs ys : List Identifier}

theorem refl :
    Gains c c [] :=
  ⟨rfl, rfl, rfl, rfl,
    fun _ _ _ hFrame => ⟨hFrame, fun _ _ => id⟩,
    fun _ _ _ hFrame => hFrame⟩

theorem trans
    (hFirst : Gains c c₁ xs)
    (hSecond : Gains c₁ c' ys) :
    Gains c c' (xs ++ ys) := by
  refine ⟨hSecond.current.trans hFirst.current,
    hSecond.globals.trans hFirst.globals,
    hSecond.function.trans hFirst.function,
    hSecond.loopDepth.trans hFirst.loopDepth, ?_, ?_⟩
  · intro k frame hCurrent hFrame
    rcases hFirst.gained k frame hCurrent hFrame with
      ⟨hFrame₁, hBound⟩
    rcases hSecond.gained k _
      (hFirst.current.trans hCurrent) hFrame₁ with
      ⟨hFrame₂, hBound₂⟩
    rw [Frame.extend_extend] at hFrame₂ hBound₂
    exact ⟨hFrame₂, fun name y hFind =>
      hBound₂ name y (hBound name y hFind)⟩
  · intro k frame hOther hFrame
    exact hSecond.others k frame (hFirst.current ▸ hOther)
      (hFirst.others k frame hOther hFrame)

/- A variable is declared whose name is new. -/
theorem declare
    {x : Identifier}
    {scope : Scope}
    (hDeclare : c.scope.declare x = .ok scope) :
    Gains c { c with scope := scope } [x] := by
  rcases Scope.declare_eq_ok hDeclare with
    ⟨l, hAt, hNew, rfl⟩
  refine ⟨rfl, rfl, rfl, rfl, ?_, ?_⟩
  · intro k frame hCurrent hFrame
    cases hAt.symm.trans hCurrent
    refine ⟨Scope.getElem?_declared x hFrame, ?_⟩
    intro name y hFind
    have hOther : x.name ≠ name := by
      intro hName
      have hMem := List.mem_of_find?_eq_some hFind
      have hSame := List.find?_some hFind
      exact hNew frame hFrame y hMem
        (by simpa [hName] using hSame)
    rw [Frame.find?, Frame.extend, List.reverse_singleton,
      List.singleton_append, List.find?_cons_of_neg]
    · exact hFind
    · simpa using hOther
  · intro k frame hOther hFrame
    have hNe : l ≠ k := fun hEq => hOther (hEq ▸ hAt)
    simp [hNe, hFrame]

theorem scope_extends
    (hGains : Gains c c' xs) :
    c.scope.Extends c'.scope := by
  refine ⟨hGains.current, ?_, ?_⟩
  · intro k frame hFrame
    by_cases hCurrent : c.scope.current = some k
    · exact ⟨_, (hGains.gained k frame hCurrent hFrame).1,
        rfl, fun _ hMem => List.mem_append_right _ hMem⟩
    · exact ⟨frame, hGains.others k frame hCurrent hFrame,
        rfl, fun _ => id⟩
  · intro k frame hFrame hOther
    exact hGains.others k frame hOther hFrame

/- Behind braces nothing of them is left. -/
theorem block
    (hInside : Gains c.enter c' xs) :
    Gains c c'.leave [] := by
  have hExtends : c.scope.enter.2.Extends c'.scope :=
    hInside.scope_extends
  refine ⟨hExtends.block.current, hInside.globals,
    hInside.function, hInside.loopDepth, ?_, ?_⟩
  · intro k frame _ hFrame
    exact ⟨hExtends.getElem?_block hFrame, fun _ _ => id⟩
  · intro k frame _ hFrame
    exact hExtends.getElem?_block hFrame

/- Behind a loop there are as many loops as before it. -/
theorem loop
    (hInside : Gains c.enterLoop c' xs) :
    Gains c c'.leaveLoop xs := by
  refine ⟨hInside.current, hInside.globals,
    hInside.function, ?_, hInside.gained, hInside.others⟩
  change c'.loopDepth - 1 = c.loopDepth
  rw [hInside.loopDepth]
  rfl

end Context.Gains

namespace Stmt

/- Statements that declare nothing and hold none. -/
def IsPlain : Stmt → Prop
| .ret _ _ _ => True
| .breakLoop _ => True
| .evaluate _ _ => True
| .empty _ => True
| _ => False

/-
  How a statement was read, with the variables that it
  declares outside of braces.  Branches and bodies of loops
  that have no braces declare in the block around.
-/
inductive Declares : Context → Stmt → Context →
    List Identifier → Prop
| declaration {c : Context} {x : Identifier} {scope : Scope}
    {value : Expr}
      (hDeclare : c.scope.declare x = .ok scope) :
    Declares c (.assign (.var x) value x.line)
      { c with scope := scope } [x]
| assignment {c : Context} {target : Place} {value : Expr}
    {line : Nat} (hTarget : target.Read c.scope) :
    Declares c (.assign target value line) c []
| plain {c : Context} {st : Stmt}
    (hPlain : st.IsPlain) :
    Declares c st c []
| braces {c c' : Context} {sts : List Stmt} {line : Nat}
    (hAll : ReadAll c.enter sts c') :
    Declares c (.ofList sts line) c'.leave []
| ifThen {c c' : Context} {condition : Expr} {body : Stmt}
    {line : Nat} {xs : List Identifier}
    (hBody : Declares c body c' xs) :
    Declares c (.ifThen condition body line) c' xs
| ifElse {c c₁ c₂ : Context} {condition : Expr}
    {body other : Stmt} {line : Nat}
      {xs ys : List Identifier}
    (hBody : Declares c body c₁ xs)
    (hOther : Declares c₁ other c₂ ys) :
    Declares c (.ifElse condition body other line) c₂
      (xs ++ ys)
| whileLoop {c c' : Context} {condition : Expr}
    {body : Stmt} {line : Nat} {xs : List Identifier}
    (hBody : Declares c.enterLoop body c' xs) :
    Declares c (.whileLoop condition body line)
      c'.leaveLoop xs
| doWhile {c c' : Context} {condition : Expr} {body : Stmt}
    {line : Nat} {xs : List Identifier}
    (hBody : Declares c.enterLoop body c' xs) :
    Declares c (.doWhile body condition line)
      c'.leaveLoop xs

mutual

/- A statement gains what it declares outside of braces. -/
theorem Read.gains :
    ∀ {c : Context} {st : Stmt} {c' : Context},
      st.Read c c' → ∃ xs, Declares c st c' xs ∧
        c.Gains c' xs
| _, _, _, .declaration _ _ _ _ hDeclare =>
    ⟨_, .declaration hDeclare, .declare hDeclare⟩
| _, _, _, .assignment hTarget _ _ =>
    ⟨_, .assignment hTarget, .refl⟩
| _, _, _, .evaluation _ _ => ⟨_, .plain trivial, .refl⟩
| _, _, _, .returnNothing _ _ => ⟨_, .plain trivial, .refl⟩
| _, _, _, .returnValue _ _ _ _ =>
    ⟨_, .plain trivial, .refl⟩
| _, _, _, .breakLoop _ => ⟨_, .plain trivial, .refl⟩
| _, _, _, .empty => ⟨_, .plain trivial, .refl⟩
| _, _, _, .block hAll => by
    rcases hAll.gains with ⟨_, hGains⟩
    exact ⟨_, .braces hAll, hGains.block⟩
| _, _, _, .ifThen _ _ hBody => by
    rcases hBody.gains with ⟨_, hDeclares, hGains⟩
    exact ⟨_, .ifThen hDeclares, hGains⟩
| _, _, _, .ifElse _ _ hBody hOther => by
    rcases hBody.gains with ⟨_, hDeclares, hGains⟩
    rcases hOther.gains with ⟨_, hDeclares₂, hGains₂⟩
    exact ⟨_, .ifElse hDeclares hDeclares₂,
      hGains.trans hGains₂⟩
| _, _, _, .whileLoop _ _ hBody => by
    rcases hBody.gains with ⟨_, hDeclares, hGains⟩
    exact ⟨_, .whileLoop hDeclares, hGains.loop⟩
| _, _, _, .doWhile hBody _ _ => by
    rcases hBody.gains with ⟨_, hDeclares, hGains⟩
    exact ⟨_, .doWhile hDeclares, hGains.loop⟩

/- So do statements in a row. -/
theorem ReadAll.gains :
    ∀ {c : Context} {sts : List Stmt} {c' : Context},
      ReadAll c sts c' → ∃ xs, c.Gains c' xs
| _, _, _, .nil => ⟨[], .refl⟩
| _, _, _, .cons hFirst hRest => by
    rcases hFirst.gains with ⟨_, -, hGains⟩
    rcases hRest.gains with ⟨_, hGains₂⟩
    exact ⟨_, hGains.trans hGains₂⟩

end

end Stmt

end Bracketry
