import Bracketry.Proofs.Stmt.Acceptance

/-
  This file shows that the variables mentioned in the body
  of a function belong to frames of that function.

  Frames are never thrown away and never used for a second
  block, so every declaration of the program is found in the
  frame that it was made in.  The names in a frame differ,
  and a variable is bound to its frame unless it is a
  parameter.

  Main declarations:
    * `Scope.Sees` and `Context.Inside`
    * `Stmt.Read.holds`
-/

namespace Bracketry

variable {c c' : Context} {x : Identifier}

------------------------------------------------------------
-- All Frames
------------------------------------------------------------

namespace Scope

variable {s s₁ s' : Scope} {x : Identifier}

/- Every frame is still there, with its variables. -/
def KeptIn (s s' : Scope) : Prop :=
  ∀ (k : Nat) (frame : Frame), s.frames[k]? = some frame →
    ∃ frame' : Frame, s'.frames[k]? = some frame' ∧
      ∀ x ∈ frame.declared, x ∈ frame'.declared

theorem KeptIn.of_frames
    (hFrames : s'.frames = s.frames) :
    s.KeptIn s' := by
  intro k frame hFrame
  rw [← hFrames] at hFrame
  exact ⟨frame, hFrame, fun _ => id⟩

theorem KeptIn.trans
    (h₁ : s.KeptIn s₁)
    (h₂ : s₁.KeptIn s') :
    s.KeptIn s' := by
  intro k frame hFrame
  rcases h₁ k frame hFrame with ⟨frame₁, hFrame₁, hMem₁⟩
  rcases h₂ k frame₁ hFrame₁ with ⟨frame₂, hFrame₂, hMem₂⟩
  exact ⟨frame₂, hFrame₂,
    fun x hMem => hMem₂ x (hMem₁ x hMem)⟩

theorem Extends.keptIn
    (hExtends : s.Extends s') :
    s.KeptIn s' := by
  intro k frame hFrame
  rcases hExtends.frames k frame hFrame with
    ⟨frame', hFrame', -, hMem⟩
  exact ⟨frame', hFrame', hMem⟩

/- What a frame holds is declared at the end. -/
theorem KeptIn.mem_declared
    {base : Nat}
    (hKept : s.KeptIn s')
    (hHolds : s.Holds base x) :
    x ∈ s'.frames.flatMap Frame.declared := by
  rcases hHolds with ⟨k, frame, -, hFrame, hMem⟩
  rcases hKept k frame hFrame with ⟨frame', hFrame', hStill⟩
  exact List.mem_flatMap.mpr
    ⟨frame', List.mem_of_getElem? hFrame', hStill x hMem⟩

end Scope

/- A frame has its own variables only. -/
structure Frame.Files
    (k : Nat)
    (frame : Frame) : Prop where
  names : (frame.declared.map Identifier.name).Nodup
  bound :
    ∀ x ∈ frame.declared,
      x.binding = .argument ∨
        ∃ function, x.binding = .block function k

namespace Scope

variable {s s' : Scope} {x : Identifier}

/- All frames have their own variables only. -/
def Ordered (s : Scope) : Prop :=
  ∀ (k : Nat) (frame : Frame), s.frames[k]? = some frame →
    frame.Files k

namespace Ordered

theorem of_frames
    (hOrdered : s.Ordered)
    (hFrames : s'.frames = s.frames) :
    s'.Ordered := by
  unfold Ordered
  rw [hFrames]
  exact hOrdered

theorem enter
    (hOrdered : s.Ordered) :
    s.enter.2.Ordered := by
  intro k frame hFrame
  change (s.frames ++ [⟨s.current, []⟩])[k]? =
    some frame at hFrame
  rw [List.getElem?_append] at hFrame
  split at hFrame
  · exact hOrdered k frame hFrame
  · rw [List.getElem?_singleton] at hFrame
    split at hFrame
    · cases hFrame
      exact ⟨List.nodup_nil, by simp⟩
    · cases hFrame

theorem declare
    (hOrdered : s.Ordered)
    (hBound :
      ∀ k, s.current = some k →
        x.binding = .argument ∨
          ∃ function, x.binding = .block function k)
    (hOk : s.declare x = .ok s') :
    s'.Ordered := by
  rcases declare_eq_ok hOk with ⟨l, hCurrent, hNew, rfl⟩
  intro k frame hFrame
  rw [List.getElem?_modify] at hFrame
  rcases Option.map_eq_some_iff.mp hFrame with
    ⟨old, hOld, hEq⟩
  have hFiles := hOrdered k old hOld
  split at hEq
  · rename_i hSame
    subst hSame hEq
    refine ⟨?_, ?_⟩
    · rw [List.map_cons, List.nodup_cons]
      refine ⟨?_, hFiles.names⟩
      intro hMem
      rcases List.mem_map.mp hMem with ⟨y, hIn, hName⟩
      exact hNew old hOld y hIn hName
    · exact List.forall_mem_cons.mpr
        ⟨hBound l hCurrent, hFiles.bound⟩
  · subst hEq
    exact hFiles

/- A variable of a block is bound to the current frame. -/
theorem declareBlock
    (hOrdered : s.Ordered)
    {function : String}
    (hBinding : x.binding = s.blockBinding function)
    (hOk : s.declare x = .ok s') :
    s'.Ordered := by
  refine hOrdered.declare
    (fun k hCurrent => .inr ⟨function, ?_⟩) hOk
  rw [hBinding, blockBinding, hCurrent]
  rfl

end Ordered

end Scope

namespace Stmt

theorem ordered_carried :
    Context.Carried fun c c' => c.scope.Ordered →
      c'.scope.Ordered where
  refl := fun _ => id
  trans := fun h₁ h₂ hOrdered => h₂ (h₁ hOrdered)
  declare := fun _ _ _ hDeclare hOrdered =>
    hOrdered.declareBlock rfl hDeclare
  block := fun h hOrdered =>
    (h hOrdered.enter).of_frames rfl
  loop := id

/- Statements declare no parameters. -/
theorem holds_carried
    {base : Nat}
    (hArgument : x.binding = .argument) :
    Context.Carried fun c c' =>
      c'.scope.Holds base x → c.scope.Holds base x where
  refl := fun _ => id
  trans := fun h₁ h₂ hHolds => h₁ (h₂ hHolds)
  declare := by
    intro c scope _ _ _ _ _ _ _ _ _ hDeclare hHolds
    rcases Scope.holds_of_declare hDeclare hHolds with
      rfl | hOld
    · cases hArgument
    · exact hOld
  block := fun h hHolds => Scope.holds_of_enter (h hHolds)
  loop := id

end Stmt

namespace Expr

theorem mem_allVariables
    {es : List Expr} :
    x ∈ allVariables es ↔ ∃ e ∈ es, x ∈ e.variables := by
  induction es with
  | nil => simp [allVariables]
  | cons e rest ih => simp [allVariables, ih]

theorem variables_ofString
    (value : String)
    (line : Nat) :
    (ofString value line).variables = [] := by
  apply List.eq_nil_iff_forall_not_mem.mpr
  intro x hMem
  rcases mem_allVariables.mp hMem with ⟨e, hElement, hIn⟩
  rcases List.mem_map.mp hElement with ⟨b, -, rfl⟩
  cases hIn

/- The initial value of a type mentions no variable. -/
theorem variables_initial
    {t : Ty}
    {line : Nat}
    {e : Expr}
    (hOk : initial t line = .ok e) :
    e.variables = [] := by
  unfold initial at hOk
  split at hOk <;> cases hOk <;> rfl

end Expr

/- Variables that are all in sight. -/
def Scope.Sees
    (σ : Scope)
    (xs : List Identifier) : Prop :=
  ∀ x ∈ xs, ∃ name, σ.lookup name = some (.var x)

variable {σ : Scope}

theorem Scope.sees_append
    {xs ys : List Identifier}
    (hFirst : σ.Sees xs)
    (hSecond : σ.Sees ys) :
    σ.Sees (xs ++ ys) :=
  List.forall_mem_append.mpr ⟨hFirst, hSecond⟩

theorem Scope.sees_allVariables
    {es : List Expr}
    (hAll : ∀ e ∈ es, σ.Sees e.variables) :
    σ.Sees (Expr.allVariables es) := by
  intro x hMem
  rcases Expr.mem_allVariables.mp hMem with
    ⟨e, hElement, hIn⟩
  exact hAll e hElement x hIn

theorem Scope.sees_nil
    (σ : Scope) :
    σ.Sees [] := by
  simp [Scope.Sees]

/- Parts in sight make up what is in sight. -/
theorem Scope.sees_checked
    (σ : Scope) :
    Expr.Checked σ (fun place => σ.Sees place.variables)
      fun e => σ.Sees e.variables where
  var := fun hLookup => by
    rw [Place.variables]
    exact List.forall_mem_singleton.mpr ⟨_, hLookup⟩
  element := fun _ hParent hIndex _ _ =>
    sees_append hParent hIndex
  member := fun _ hParent _ _ => hParent
  int := fun _ _ => σ.sees_nil
  float := fun _ _ => σ.sees_nil
  boolean := fun _ _ => σ.sees_nil
  string := fun value line => by
    rw [Expr.variables_ofString]
    exact σ.sees_nil
  array := fun _ _ hElements _ _ =>
    sees_allVariables hElements
  read := fun _ hPlace => hPlace
  call := fun _ _ hArgs _ => sees_allVariables hArgs
  negate := fun _ hOperand _ => hOperand
  negated := id
  arithmetic := fun _ hLeft hRight _ =>
    sees_append hLeft hRight
  compare := fun _ hLeft hRight _ =>
    sees_append hLeft hRight
  and := fun _ hLeft hRight _ _ => sees_append hLeft hRight
  or := fun _ hLeft hRight _ _ => sees_append hLeft hRight
  not := fun _ hOperand _ => hOperand
  inverted := id

theorem Place.Read.sees
    {place : Place}
    (hRead : place.Read σ) :
    σ.Sees place.variables :=
  hRead.checked σ.sees_checked

/- An expression mentions variables in sight only. -/
theorem Expr.Read.sees
    {e : Expr}
    (hRead : e.Read σ) :
    σ.Sees e.variables :=
  hRead.checked σ.sees_checked

theorem Stmt.Initial.sees
    {declared t : Ty}
    {value : Expr}
    (hInitial : Initial σ declared t value) :
    σ.Sees value.variables := by
  cases hInitial with
  | given hValue _ => exact hValue.sees
  | default _ hOk =>
      rw [Expr.variables_initial hOk]
      exact σ.sees_nil

------------------------------------------------------------
-- Variables of Statements
------------------------------------------------------------

namespace Stmt

theorem variables_ofList
    (sts : List Stmt)
    (line : Nat) :
    (ofList sts line).variables = allVariables sts := by
  cases sts with
  | nil => rfl
  | cons head tail =>
      rw [ofList, Stmt.variables, Stmt.allVariables]

/- Statements keep the frames and their variables. -/
theorem extends_carried :
    Context.Carried fun c c' =>
      c.scope.Extends c'.scope where
  refl := fun c => .refl c.scope
  trans := .trans
  declare := fun _ _ _ hDeclare => .declare hDeclare
  block := .block
  loop := id

theorem Read.extends
    {st : Stmt}
    (hRead : st.Read c c') :
    c.scope.Extends c'.scope :=
  hRead.carried extends_carried

theorem ReadAll.extends
    {sts : List Stmt}
    (hAll : ReadAll c sts c') :
    c.scope.Extends c'.scope :=
  hAll.carried extends_carried

end Stmt

/- Reading the function whose first frame is `base`. -/
structure Context.Inside
    (base : Nat)
    (name : String)
    (c : Context) : Prop where
  scope : c.scope.Local base name
  function : ∃ returnType, c.function =
    some ⟨name, returnType⟩

/- Variables in sight belong to the function. -/
theorem Context.Inside.holds
    {base : Nat}
    {name : String}
    {c : Context}
    {xs : List Identifier}
    (hInside : c.Inside base name)
    (hSees : c.scope.Sees xs)
    (hExtends : c.scope.Extends σ) :
    ∀ x ∈ xs, σ.Holds base x := by
  intro x hMem
  rcases hSees x hMem with ⟨_, hLookup⟩
  exact hExtends.holds
    (hInside.scope.holds_of_lookup hLookup)

namespace Stmt

variable {base : Nat} {name : String}
variable {enclosing : Enclosing}

/- A variable is bound to the current frame. -/
theorem blockBinding_eq
    (hInside : c.Inside base name)
    (hFunction : c.function = some enclosing) :
    ∀ k, c.scope.current = some k →
      c.scope.blockBinding enclosing.name =
        .block name k := by
  intro k hCurrent
  rcases hInside.function with ⟨returnType, hName⟩
  cases hFunction.symm.trans hName
  rw [Scope.blockBinding, hCurrent]
  rfl

/- A variable is declared in a frame of the function. -/
theorem inside_of_declare
    {scope : Scope}
    (hInside : c.Inside base name)
    (hFunction : c.function = some enclosing)
    (hBinding :
      x.binding = c.scope.blockBinding enclosing.name)
    (hDeclare : c.scope.declare x = .ok scope) :
    Context.Inside base name { c with scope := scope } ∧
      scope.Holds base x := by
  have hBound := blockBinding_eq hInside hFunction
  rw [← hBinding] at hBound
  rcases hInside.scope.declare
    (fun k hAt => .inr (hBound k hAt)) hDeclare
    with ⟨hLocal, hHolds⟩
  exact ⟨⟨hLocal, hInside.function⟩, hHolds⟩

/- Statements stay in the function. -/
theorem inside_carried :
    Context.Carried fun c c' => c.scope.Extends c'.scope ∧
      (c.Inside base name → c'.Inside base name) where
  refl := fun c => ⟨.refl c.scope, id⟩
  trans := fun ⟨hFirst, h₁⟩ ⟨hSecond, h₂⟩ =>
    ⟨hFirst.trans hSecond, fun hInside => h₂ (h₁ hInside)⟩
  declare := fun _ _ hFunction hDeclare =>
    ⟨.declare hDeclare, fun hInside =>
      (inside_of_declare hInside hFunction rfl hDeclare).1⟩
  block := fun ⟨hExtends, h⟩ => by
    refine ⟨.block hExtends, fun hInside => ?_⟩
    have hLast := h ⟨hInside.scope.enter, hInside.function⟩
    exact ⟨hInside.scope.leave hLast.scope
      (.block hExtends), hLast.function⟩
  loop := fun ⟨hExtends, h⟩ => by
    refine ⟨hExtends, fun hInside => ?_⟩
    have hLast := h ⟨hInside.scope, hInside.function⟩
    exact ⟨hLast.scope, hLast.function⟩

theorem Read.inside
    {st : Stmt}
    (hRead : st.Read c c') :
    c.Inside base name → c'.Inside base name :=
  (hRead.carried inside_carried).2

theorem ReadAll.inside
    {sts : List Stmt}
    (hAll : ReadAll c sts c') :
    c.Inside base name → c'.Inside base name :=
  (hAll.carried inside_carried).2

mutual

/- All variables belong to the function. -/
theorem Read.holds :
    ∀ {c : Context} {st : Stmt} {c' : Context},
      st.Read c c' → c.Inside base name →
      ∀ x ∈ st.variables, c'.scope.Holds base x
| _, _, _, .declaration _ _ hInitial hFunction hDeclare,
    hInside => by
    rw [Stmt.variables, Place.variables]
    refine List.forall_mem_append.mpr ⟨?_, ?_⟩
    · exact List.forall_mem_singleton.mpr
        (inside_of_declare hInside hFunction rfl hDeclare).2
    · exact hInside.holds hInitial.sees (.declare hDeclare)
| _, _, _, .assignment hTarget hValue _, hInside => by
    rw [Stmt.variables]
    exact hInside.holds
      (Scope.sees_append hTarget.sees hValue.sees) (.refl _)
| _, _, _, .evaluation hCall _, hInside => by
    rw [Stmt.variables]
    exact hInside.holds hCall.sees (.refl _)
| _, _, _, .returnNothing _ _, _ => by simp [Stmt.variables]
| _, _, _, .returnValue _ _ hValue _, hInside => by
    rw [Stmt.variables]
    exact hInside.holds hValue.sees (.refl _)
| _, _, _, .breakLoop _, _ => by simp [Stmt.variables]
| _, _, _, .empty, _ => by simp [Stmt.variables]
| c, _, _, .block hAll, hInside => by
    have hEnter : c.enter.Inside base name :=
      ⟨hInside.scope.enter, hInside.function⟩
    rw [variables_ofList]
    exact hAll.holds hEnter
| _, _, _, .ifThen hCondition _ hBody, hInside => by
    rw [Stmt.variables]
    exact List.forall_mem_append.mpr
      ⟨hInside.holds hCondition.sees hBody.extends,
        hBody.holds hInside⟩
| _, _, _, .ifElse hCondition _ hBody hOther, hInside => by
    rw [Stmt.variables]
    have hExtends := hBody.extends.trans hOther.extends
    refine List.forall_mem_append.mpr
      ⟨List.forall_mem_append.mpr ⟨?_, ?_⟩, ?_⟩
    · exact hInside.holds hCondition.sees hExtends
    · exact fun x hMem =>
        hOther.extends.holds (hBody.holds hInside x hMem)
    · exact hOther.holds (hBody.inside hInside)
| c, _, _, .whileLoop hCondition _ hBody, hInside => by
    have hEnter : c.enterLoop.Inside base name :=
      ⟨hInside.scope, hInside.function⟩
    rw [Stmt.variables]
    exact List.forall_mem_append.mpr
      ⟨hInside.holds hCondition.sees hBody.extends,
        hBody.holds hEnter⟩
| c, _, _, .doWhile hBody hCondition _, hInside => by
    have hEnter : c.enterLoop.Inside base name :=
      ⟨hInside.scope, hInside.function⟩
    have hLast := hBody.inside hEnter
    rw [Stmt.variables]
    exact List.forall_mem_append.mpr
      ⟨hBody.holds hEnter,
        hLast.holds hCondition.sees (.refl _)⟩

theorem ReadAll.holds :
    ∀ {c : Context} {sts : List Stmt} {c' : Context},
      ReadAll c sts c' → c.Inside base name →
      ∀ x ∈ allVariables sts, c'.scope.Holds base x
| _, _, _, .nil, _ => by simp [Stmt.allVariables]
| _, _, _, .cons hFirst hRest, hInside => by
    rw [Stmt.allVariables]
    refine List.forall_mem_append.mpr ⟨?_, ?_⟩
    · exact fun x hMem =>
        hRest.extends.holds (hFirst.holds hInside x hMem)
    · exact hRest.holds (hFirst.inside hInside)

end

end Stmt

end Bracketry
