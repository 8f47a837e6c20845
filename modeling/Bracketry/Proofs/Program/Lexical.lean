import Bracketry.Proofs.Program.Storage
import Bracketry.Proofs.Scope.Stack
import Bracketry.Proofs.Stmt.Neutrality

/-
  This file says what it means that names are resolved
  lexically, and shows it of the programs that are accepted.

  A name means the variable of the innermost open block that
  has it, braces open and close a block, and a declaration
  adds a variable behind its initializer.  The parameters of
  a function share the block of its body.

  Main declarations:
    * `Blocks` and `Blocks.find?`
    * `Stmt.Scoped` and `Stmt.Read.scoped`
-/

namespace Bracketry

variable {xs : List Identifier}

/-
  The variables of the open blocks, the innermost block
  first and in each block the last variable first.
-/
abbrev Blocks :=
  List (List Identifier)

namespace Blocks

/- The variable in the innermost block that has one. -/
def find?
    (blocks : Blocks)
    (name : String) : Option Identifier :=
  blocks.findSome? fun block => block.find? fun x =>
    x.name = name

/- Variables are added to the innermost block, in order. -/
def declare : Blocks → List Identifier → Blocks
| [], _ => []
| block :: outer, xs => (xs.reverse ++ block) :: outer

/- Each of some variables is what its name means. -/
def Resolves
    (blocks : Blocks)
    (xs : List Identifier) : Prop :=
  ∀ x ∈ xs, blocks.find? x.name = some x

/- What a name means is in one of the blocks. -/
theorem Resolves.mem
    {blocks : Blocks}
    {x : Identifier}
    (hResolves : blocks.Resolves xs)
    (hMem : x ∈ xs) :
    ∃ block ∈ blocks, x ∈ block := by
  rcases List.exists_of_findSome?_eq_some
    (hResolves x hMem) with
    ⟨block, hBlock, hFind⟩
  exact ⟨block, hBlock, List.mem_of_find?_eq_some hFind⟩

end Blocks

mutual

/-
  A statement inside of `depth` loops and in open blocks is
  resolved lexically; the variables are those it declares
  outside of braces.  Declaring a variable asks for a name
  that is new in the block.  The variable is in none of the
  blocks yet, so its initializer means another one by the
  same name.
-/
inductive Stmt.Scoped : Nat → Blocks → Stmt →
    List Identifier → Prop
| declaration {depth : Nat} {block : List Identifier}
    {outer : Blocks} {x : Identifier} {value : Expr}
    (hValue : Blocks.Resolves (block :: outer)
      value.variables)
    (hName : ∀ y ∈ block, y.name ≠ x.name)
    (hNew : ∀ other ∈ block :: outer, x ∉ other)
    (hUnseen : x ∉ value.variables) :
    Stmt.Scoped depth (block :: outer)
      (.assign (.var x) value x.line) [x]
| assignment {depth : Nat} {blocks : Blocks}
    {target : Place} {value : Expr} {line : Nat}
    (hTarget : blocks.Resolves target.variables)
    (hValue : blocks.Resolves value.variables) :
    Stmt.Scoped depth blocks (.assign target value line) []
| evaluation {depth : Nat} {blocks : Blocks} {call : Expr}
    {line : Nat} (hCall : blocks.Resolves call.variables) :
    Stmt.Scoped depth blocks (.evaluate call line) []
| returnNothing {depth : Nat} {blocks : Blocks} {t : Ty}
    {line : Nat} :
      Stmt.Scoped depth blocks (.ret none t line) []
| returnValue {depth : Nat} {blocks : Blocks} {value : Expr}
    {t : Ty} {line : Nat}
    (hValue : blocks.Resolves value.variables) :
    Stmt.Scoped depth blocks (.ret (some value) t line) []
| breakLoop {depth : Nat} {blocks : Blocks} {line : Nat}
    (hInside : depth ≠ 0) :
    Stmt.Scoped depth blocks (.breakLoop line) []
| empty {depth : Nat} {blocks : Blocks} {line : Nat} :
    Stmt.Scoped depth blocks (.empty line) []
| braces {depth : Nat} {blocks : Blocks} {sts : List Stmt}
    {line : Nat} {xs : List Identifier}
    (hAll : Stmt.ScopedAll depth ([] :: blocks) sts xs) :
    Stmt.Scoped depth blocks (.ofList sts line) []
| ifThen {depth : Nat} {blocks : Blocks} {condition : Expr}
    {body : Stmt} {line : Nat} {xs : List Identifier}
    (hCondition : blocks.Resolves condition.variables)
    (hBody : Stmt.Scoped depth blocks body xs) :
    Stmt.Scoped depth blocks (.ifThen condition body line)
      xs
| ifElse {depth : Nat} {blocks : Blocks} {condition : Expr}
    {body other : Stmt} {line : Nat}
      {xs ys : List Identifier}
    (hCondition : blocks.Resolves condition.variables)
    (hBody : Stmt.Scoped depth blocks body xs)
    (hOther : Stmt.Scoped depth (blocks.declare xs)
      other ys) :
    Stmt.Scoped depth blocks
      (.ifElse condition body other line) (xs ++ ys)
| whileLoop {depth : Nat} {blocks : Blocks}
    {condition : Expr} {body : Stmt}
    {line : Nat} {xs : List Identifier}
    (hCondition : blocks.Resolves condition.variables)
    (hBody : Stmt.Scoped (depth + 1) blocks body xs) :
    Stmt.Scoped depth blocks
      (.whileLoop condition body line) xs
| doWhile {depth : Nat} {blocks : Blocks} {condition : Expr}
    {body : Stmt} {line : Nat} {xs : List Identifier}
    (hBody : Stmt.Scoped (depth + 1) blocks body xs)
    (hCondition :
      (blocks.declare xs).Resolves condition.variables) :
    Stmt.Scoped depth blocks (.doWhile body condition line)
      xs

/- The same of statements in a row. -/
inductive Stmt.ScopedAll :
    Nat → Blocks → List Stmt → List Identifier → Prop
| nil {depth : Nat} {blocks : Blocks} :
    Stmt.ScopedAll depth blocks [] []
| cons {depth : Nat} {blocks : Blocks} {st : Stmt}
    {rest : List Stmt} {xs ys : List Identifier}
    (hFirst : Stmt.Scoped depth blocks st xs)
    (hRest : Stmt.ScopedAll depth (blocks.declare xs)
      rest ys) :
    Stmt.ScopedAll depth blocks (st :: rest) (xs ++ ys)

end

namespace Scope

variable {x : Identifier}

/- The frames from the current one outward. -/
def blocks (s : Scope) : Blocks :=
  s.visible.map Frame.declared

/- The open frames lie inside each other. -/
def Chained (s : Scope) : Prop :=
  ∃ ks, Frame.Chain s.frames s.current ks

variable {s s' : Scope}

theorem find?_blocks
    (name : String) :
    s.blocks.find? name = s.var? name := by
  rw [blocks, Blocks.find?, List.findSome?_map]
  rfl

theorem name_of_var?
    {name : String}
    (hVar : s.var? name = some x) :
    x.name = name := by
  rcases List.exists_of_findSome?_eq_some hVar with
    ⟨frame, -, hFind⟩
  simpa using List.find?_some hFind

/- What is in sight is what its name means. -/
theorem resolves_of_sees
    (hSees : s.Sees xs) :
    s.blocks.Resolves xs := by
  intro x hMem
  rcases hSees x hMem with ⟨name, hLookup⟩
  have hVar : s.var? name = some x := by
    unfold lookup at hLookup
    split at hLookup
    · rename_i y hFound
      cases hLookup
      exact hFound
    · rcases Option.map_eq_some_iff.mp hLookup with
        ⟨_, -, hFunction⟩
      cases hFunction
  rw [find?_blocks, name_of_var? hVar]
  exact hVar

theorem blocks_of_chain
    {ks : List Nat}
    (hChain : Frame.Chain s.frames s.current ks) :
    s.blocks = ks.filterMap fun k =>
      s.frames[k]?.map Frame.declared := by
  rw [blocks, visible, hChain.outward_eq hChain.lt_length,
    List.map_filterMap]

/- Entering opens an empty block. -/
theorem Chained.enter
    (hChained : s.Chained) :
    s.enter.2.Chained ∧
      s.enter.2.blocks = [] :: s.blocks := by
  rcases hChained with ⟨ks, hChain⟩
  have hOuter : Frame.Chain s.enter.2.frames s.current ks :=
    hChain.of_parents fun _ frame hFrame =>
      ⟨frame, Extends.getElem?_enter hFrame, rfl⟩
  have hInner :
      Frame.Chain s.enter.2.frames s.enter.2.current
      (s.frames.length :: ks) :=
    .cons (Extends.getElem?_opened s) hChain.lt_length
      hOuter
  refine ⟨⟨_, hInner⟩, ?_⟩
  rw [blocks_of_chain hInner, blocks_of_chain hChain,
    List.filterMap_cons_some
      (by rw [Extends.getElem?_opened s]; rfl)]
  congr 1
  apply List.filterMap_congr
  intro k hMem
  rw [show s.enter.2.frames[k]? = s.frames[k]? from
    List.getElem?_append_left (hChain.lt_length k hMem)]

/- A variable of a block is new, being bound to it. -/
theorem Ordered.new_of_declare
    {function : String}
    (hOrdered : s.Ordered)
    (hChained : s.Chained)
    (hBinding : x.binding = s.blockBinding function)
    (hOk : s.declare x = .ok s') :
    ∀ block ∈ s.blocks, x ∉ block := by
  rcases declare_eq_ok hOk with ⟨k, hCurrent, hNew, -⟩
  have hBound : x.binding = .block function k := by
    rw [hBinding, blockBinding, hCurrent]
    rfl
  -- it is in no frame at all, of its own number or another
  -- one
  have hNowhere : ∀ (l : Nat) (frame : Frame),
      s.frames[l]? = some frame → x ∉ frame.declared := by
    intro l frame hFrame hMem
    by_cases hSame : l = k
    · subst hSame
      exact hNew frame hFrame x hMem rfl
    · rcases (hOrdered l frame hFrame).bound x hMem with
        hArgument | ⟨other, hOther⟩
      · cases hBound.symm.trans hArgument
      · cases hBound.symm.trans hOther
        exact hSame rfl
  rcases hChained with ⟨ks, hChain⟩
  intro block hBlock
  rw [blocks_of_chain hChain] at hBlock
  rcases List.mem_filterMap.mp hBlock with ⟨l, -, hAt⟩
  rcases Option.map_eq_some_iff.mp hAt with
    ⟨frame, hFrame, rfl⟩
  exact hNowhere l frame hFrame

end Scope

/- Only the innermost block gains variables. -/
theorem Context.Gains.blocks_eq
    {c c' : Context}
    (hGains : c.Gains c' xs)
    (hChained : c.scope.Chained) :
    c'.scope.Chained ∧
      c'.scope.blocks = c.scope.blocks.declare xs := by
  rcases hChained with ⟨ks, hChain⟩
  have hChain' :
      Frame.Chain c'.scope.frames c'.scope.current ks := by
    rw [hGains.current]
    refine hChain.of_parents fun k frame hFrame => ?_
    rcases hGains.scope_extends.frames k frame hFrame with
      ⟨frame', hFrame', hParent, -⟩
    exact ⟨frame', hFrame', hParent⟩
  refine ⟨⟨ks, hChain'⟩, ?_⟩
  rw [Scope.blocks_of_chain hChain',
    Scope.blocks_of_chain hChain]
  cases hCurrent : c.scope.current with
  | none =>
      rw [hCurrent] at hChain
      cases hChain
      rfl
  | some k =>
      rw [hCurrent] at hChain
      cases hChain with
      | @cons _ frame outer hFrame hOlder hOuter =>
          have hOthers : ∀ l ∈ outer,
              c'.scope.frames[l]? = c.scope.frames[l]? := by
            intro l hMem
            have hOpen := hOuter.lt_length l hMem
            rw [List.getElem?_eq_getElem hOpen]
            refine hGains.others l _ ?_
              (List.getElem?_eq_getElem hOpen)
            rw [hCurrent]
            intro hSame
            cases hSame
            exact Nat.lt_irrefl _ (hOlder _ hMem)
          rw [List.filterMap_cons_some
              (b := (frame.extend xs).declared)
              (by
                rw [(hGains.gained k frame hCurrent
                  hFrame).1]; rfl),
            List.filterMap_cons_some (b := frame.declared)
              (by rw [hFrame]; rfl), Blocks.declare]
          congr 1
          apply List.filterMap_congr
          intro l hMem
          rw [hOthers l hMem]

------------------------------------------------------------
-- Statements that are Read
------------------------------------------------------------

/- Open frames lie inside each other. -/
structure Context.Tidy (c : Context) : Prop where
  chained : c.scope.Chained
  ordered : c.scope.Ordered

theorem Context.Tidy.enter
    {c : Context}
    (hTidy : c.Tidy) :
    c.enter.Tidy :=
  ⟨hTidy.chained.enter.1, hTidy.ordered.enter⟩

namespace Stmt

/- A declaration adds to the innermost block. -/
theorem scoped_of_declare
    {c : Context}
    {scope : Scope}
    {function name : String}
    {t : Ty}
    {value : Expr}
    {line : Nat}
    (hTidy : c.Tidy)
    (hValue : c.scope.Sees value.variables)
    (hDeclare : c.scope.declare
      ⟨name, t, c.scope.blockBinding function, line⟩ =
        .ok scope) :
    Scoped c.loopDepth c.scope.blocks
      (.assign
        (.var ⟨name, t, c.scope.blockBinding function,
          line⟩) value
        line)
      [⟨name, t, c.scope.blockBinding function, line⟩] := by
  have hResolves := Scope.resolves_of_sees hValue
  have hNew := hTidy.ordered.new_of_declare hTidy.chained
    rfl hDeclare
  rcases Scope.declare_eq_ok hDeclare with
    ⟨k, hCurrent, hNames, -⟩
  rcases hTidy.chained with ⟨ks, hChain⟩
  have hBlocks := Scope.blocks_of_chain hChain
  rw [hCurrent] at hChain
  cases hChain with
  | @cons _ frame outer hFrame _ _ =>
      rw [List.filterMap_cons_some (b := frame.declared)
        (by rw [hFrame]; rfl)] at hBlocks
      rw [hBlocks] at hResolves hNew ⊢
      refine .declaration hResolves (hNames frame hFrame)
        hNew ?_
      intro hSeen
      rcases hResolves.mem hSeen with ⟨block, hBlock, hMem⟩
      exact hNew block hBlock hMem

mutual

theorem Read.scoped :
    ∀ {c : Context} {st : Stmt} {c' : Context},
      st.Read c c' → ∃ xs, c.Gains c' xs ∧
        (c.Tidy → Scoped c.loopDepth c.scope.blocks st xs)
| _, _, _, .declaration _ _ hInitial _ hDeclare =>
    ⟨_, .declare hDeclare, fun hTidy =>
      scoped_of_declare hTidy hInitial.sees hDeclare⟩
| _, _, _, .assignment hTarget hValue _ =>
    ⟨_, .refl, fun _ =>
      .assignment (Scope.resolves_of_sees hTarget.sees)
      (Scope.resolves_of_sees hValue.sees)⟩
| _, _, _, .evaluation hCall _ =>
    ⟨_, .refl, fun _ =>
      .evaluation (Scope.resolves_of_sees hCall.sees)⟩
| _, _, _, .returnNothing _ _ =>
    ⟨_, .refl, fun _ => .returnNothing⟩
| _, _, _, .returnValue _ _ hValue _ =>
    ⟨_, .refl, fun _ =>
      .returnValue (Scope.resolves_of_sees hValue.sees)⟩
| _, _, _, .breakLoop hInside =>
    ⟨_, .refl, fun _ => .breakLoop hInside⟩
| _, _, _, .empty => ⟨_, .refl, fun _ => .empty⟩
| c, _, _, .block hAll => by
    rcases hAll.scoped with ⟨_, hGains, hScoped⟩
    refine ⟨_, hGains.block, fun hTidy => ?_⟩
    have hOpened : c.enter.scope.blocks =
      [] :: c.scope.blocks :=
      hTidy.chained.enter.2
    have hInside := hScoped hTidy.enter
    rw [hOpened] at hInside
    exact .braces hInside
| _, _, _, .ifThen hCondition _ hBody => by
    rcases hBody.scoped with ⟨_, hGains, hScoped⟩
    exact ⟨_, hGains, fun hTidy =>
      .ifThen (Scope.resolves_of_sees hCondition.sees)
        (hScoped hTidy)⟩
| _, _, _, .ifElse hCondition _ hBody hOther => by
    rcases hBody.scoped with ⟨_, hGains, hScoped⟩
    rcases hOther.scoped with ⟨_, hGains₂, hScoped₂⟩
    refine ⟨_, hGains.trans hGains₂, fun hTidy => ?_⟩
    rcases hGains.blocks_eq hTidy.chained with
      ⟨hChained, hBlocks⟩
    have hAfter := hScoped₂ ⟨hChained,
      hBody.carried ordered_carried hTidy.ordered⟩
    rw [hGains.loopDepth, hBlocks] at hAfter
    exact .ifElse (Scope.resolves_of_sees hCondition.sees)
      (hScoped hTidy) hAfter
| c, _, _, .whileLoop hCondition _ hBody => by
    rcases hBody.scoped with ⟨_, hGains, hScoped⟩
    refine ⟨_, hGains.loop, fun hTidy => ?_⟩
    have hTidy' : c.enterLoop.Tidy :=
      ⟨hTidy.chained, hTidy.ordered⟩
    exact .whileLoop
      (Scope.resolves_of_sees hCondition.sees)
      (hScoped hTidy')
| c, _, _, .doWhile hBody hCondition _ => by
    rcases hBody.scoped with ⟨_, hGains, hScoped⟩
    refine ⟨_, hGains.loop, fun hTidy => ?_⟩
    have hTidy' : c.enterLoop.Tidy :=
      ⟨hTidy.chained, hTidy.ordered⟩
    have hAfter := Scope.resolves_of_sees hCondition.sees
    rw [(hGains.blocks_eq hTidy'.chained).2] at hAfter
    exact .doWhile (hScoped hTidy') hAfter

theorem ReadAll.scoped :
    ∀ {c : Context} {sts : List Stmt} {c' : Context},
      ReadAll c sts c' → ∃ xs, c.Gains c' xs ∧
        (c.Tidy →
          ScopedAll c.loopDepth c.scope.blocks sts xs)
| _, _, _, .nil => ⟨_, .refl, fun _ => .nil⟩
| _, _, _, .cons hFirst hRest => by
    rcases hFirst.scoped with ⟨_, hGains, hScoped⟩
    rcases hRest.scoped with ⟨_, hGains₂, hScoped₂⟩
    refine ⟨_, hGains.trans hGains₂, fun hTidy => ?_⟩
    rcases hGains.blocks_eq hTidy.chained with
      ⟨hChained, hBlocks⟩
    have hAfter := hScoped₂ ⟨hChained,
      hFirst.carried ordered_carried hTidy.ordered⟩
    rw [hGains.loopDepth, hBlocks] at hAfter
    exact .cons (hScoped hTidy) hAfter

end

end Stmt

/-
  The body of a function is resolved lexically, in a block
  in which the parameters are declared and inside of no
  loop.
-/
def FunctionDef.Scoped (f : FunctionDef) : Prop :=
  (f.signature.params.map Identifier.name).Nodup ∧
    ∃ sts line xs, f.body = .ofList sts line ∧
      Stmt.ScopedAll 0 [f.signature.params.reverse] sts xs

namespace Scope

variable {s s' : Scope}

theorem blocks_of_frames
    (hFrames : s'.frames = s.frames)
    (hCurrent : s'.current = s.current) :
    s'.blocks = s.blocks := by
  unfold blocks visible
  rw [hFrames, hCurrent]

theorem Chained.of_frames
    (hChained : s.Chained)
    (hFrames : s'.frames = s.frames)
    (hCurrent : s'.current = s.current) :
    s'.Chained := by
  unfold Chained
  rw [hFrames, hCurrent]
  exact hChained

/- Outside of functions no block is open. -/
theorem chained_of_outside
    (hOutside : s.current = none) :
    s.Chained ∧ s.blocks = [] := by
  have hChain : Frame.Chain s.frames s.current [] := by
    rw [hOutside]
    exact .nil
  exact ⟨⟨[], hChain⟩, blocks_of_chain hChain⟩

theorem Declares.gains
    (hDeclares : s.Declares xs s')
    (loopDepth : Nat)
    (function : Option Enclosing) :
    Context.Gains ⟨s, loopDepth, function⟩
      ⟨s', loopDepth, function⟩ xs := by
  induction hDeclares with
  | nil => exact .refl
  | @cons s s₁ s₂ x rest hFirst _ ih =>
      have hGains : Context.Gains ⟨s, loopDepth, function⟩
          ⟨s₁, loopDepth, function⟩ [x] :=
        .declare hFirst
      exact hGains.trans ih

end Scope

namespace Program

variable {s : Parser}

section

variable {c c₁ : Context} {params : List Identifier}
    {scope : Scope}
variable {returnType : Ty} {hasBody : Bool} {p : Prototype}

/- Behind its header the body of a function can be read. -/
theorem tidy_of_headed
    (hOutside : c.scope.current = none)
    (hOrdered : c.scope.Ordered)
    (hParams : Parameters c params scope)
    (hHead :
      Headed { c with scope := scope } returnType params
        hasBody p c₁) :
    (c₁.enterFunction p params).Tidy ∧
      (c₁.enterFunction p params).scope.blocks =
        [params.reverse] := by
  rcases Scope.chained_of_outside hOutside with
    ⟨hChained, hNone⟩
  rcases hChained.enter with ⟨hEntered, hOpened⟩
  have hGains : c.enter.Gains { c with scope := scope }
    params :=
    hParams.declared.gains c.loopDepth c.function
  rcases hGains.blocks_eq hEntered with ⟨hChained₁, hBlocks⟩
  have hFrames : (c₁.enterFunction p params).scope.frames =
    scope.frames :=
    hHead.kept.2.1
  have hCurrent :
      (c₁.enterFunction p params).scope.current =
        scope.current :=
    hHead.kept.2.2.1
  have hEmpty : c.enter.scope.blocks = [[]] := by
    rw [← hNone]
    exact hOpened
  refine ⟨⟨hChained₁.of_frames hFrames hCurrent, ?_⟩, ?_⟩
  · exact (hOrdered.enter.declares hParams.declared
      hParams.bound).of_frames hFrames
  · rw [Scope.blocks_of_frames hFrames hCurrent]
    refine hBlocks.trans ?_
    rw [hEmpty, Blocks.declare, List.append_nil]

end

/- A construct is left as it was entered. -/
theorem Read.neutral
    {c c' : Context}
    {fs : List FunctionDef}
    (hRead : Read c fs c') :
    c'.scope.current = c.scope.current ∧
      c'.loopDepth = c.loopDepth := by
  induction hRead with
  | nil => exact ⟨rfl, rfl⟩
  | record _ _ _ _ _ ih => exact ih
  | @header c c₁ _ _ scope params _ _ _ hParams
      hHead _ ih =>
        have hInside : c.scope.enter.2.Extends c₁.scope :=
          hParams.declared.extends.trans hHead.extends
        exact ⟨ih.1.trans hInside.block.current,
          ih.2.trans hHead.kept.2.2.2.1⟩
  | @function c c₁ c₂ _ _ scope params p _ _ _ _ _ hParams
      hHead hBody _ ih =>
        have hInside : c.scope.enter.2.Extends c₂.scope :=
          ((hParams.declared.extends.trans
            hHead.extends).trans
            (extends_enterFunction c₁ p params)).trans
              hBody.extends
        rcases hBody.gains with ⟨_, hGains⟩
        exact ⟨ih.1.trans hInside.block.current,
          (ih.2.trans hGains.loopDepth).trans
            hHead.kept.2.2.2.1⟩

/- All functions that are read are resolved lexically. -/
theorem Read.scoped
    {c c' : Context}
    {fs : List FunctionDef}
    (hRead : Read c fs c')
    (hOutside : c.scope.current = none)
    (hLoops : c.loopDepth = 0)
    (hOrdered : c.scope.Ordered) :
    ∀ f ∈ fs, f.Scoped := by
  induction hRead with
  | nil => simp
  | record hSpelled hSpecified hNames hOk _ ih =>
      have hFirst : Read _ [] _ :=
        .record hSpelled hSpecified hNames hOk .nil
      exact ih hOutside hLoops (hFirst.ordered hOrdered)
  | header hReturn hParams hHead _ ih =>
      have hFirst : Read _ [] _ :=
        .header hReturn hParams hHead .nil
      rcases hFirst.neutral with ⟨hCurrent, hDepth⟩
      exact ih (hCurrent.trans hOutside)
        (hDepth.trans hLoops) (hFirst.ordered hOrdered)
  | @function c c₁ c₂ _ _ scope params p sts start line _
      hReturn hParams hHead hBody _ ih =>
      have hFirst :
          Read c
            [⟨{ p with
              implemented := true, params := params },
          .ofList sts start, line⟩] c₂.leaveFunction :=
        .function hReturn hParams hHead hBody .nil
      rcases hFirst.neutral with ⟨hCurrent, hDepth⟩
      rw [List.forall_mem_cons]
      refine ⟨⟨hParams.names, sts, start, ?_⟩,
        ih (hCurrent.trans hOutside)
        (hDepth.trans hLoops) (hFirst.ordered hOrdered)⟩
      rcases tidy_of_headed hOutside hOrdered hParams
        hHead with
        ⟨hTidy, hBlocks⟩
      rcases hBody.scoped with ⟨xs, -, hScoped⟩
      have hInside : c₁.loopDepth = 0 :=
        hHead.kept.2.2.2.1.trans hLoops
      have hAll := hScoped hTidy
      rw [hBlocks] at hAll
      exact ⟨xs, rfl, hInside ▸ hAll⟩

theorem topLevel_neutral
    {s s' : Parser}
    {found : Option FunctionDef}
    (hOk : topLevel s = .ok found s') :
    s'.scope.current = s.scope.current ∧
      s'.loopDepth = s.loopDepth := by
  have hRead : Read s.context found.toList s'.context :=
    topLevel_leads.of_ok s found s' rfl hOk
  exact hRead.neutral

/- An accepted program leaves nothing open. -/
theorem scoped_of_read
    {source : String}
    {p : Program}
    (hRead : Program.read source = .ok p s) :
    s.scope.current = none ∧ s.loopDepth = 0 ∧
      ∀ f ∈ p.functions, f.Scoped := by
  rcases read_of_read hRead with ⟨hProgram, -⟩
  rcases hProgram.neutral with ⟨hCurrent, hDepth⟩
  have hEmpty : Scope.empty.Ordered := by
    intro k frame hFrame
    cases hFrame
  exact ⟨hCurrent, hDepth, hProgram.scoped rfl rfl hEmpty⟩

/-
  From any state, reading a statement leaves the context as
  it was but for the variables that it declares outside of
  braces, which the open frame gains.  A construct at top
  level ends in the frame and the loops it started in, which
  for a program are none.  So in a program that is accepted
  each name means the variable of the innermost block that
  has one so far, and no initializer means the variable it
  is for.  A break is accepted inside of loops only, and
  never rejected there.
-/
theorem names_lexical :
    (∀ s st s', Stmt.parse s = .ok st s' →
      ∃ xs, Stmt.Declares s.context st s'.context xs ∧
        s.context.Gains s'.context xs) ∧
    (∀ s found s', topLevel s = .ok found s' →
      s'.scope.current = s.scope.current ∧
        s'.loopDepth = s.loopDepth) ∧
    (∀ source p s, Program.read source = .ok p s →
      s.scope.current = none ∧ s.loopDepth = 0 ∧
        ∀ f ∈ p.functions, f.Scoped) ∧
    (∀ s s' : Parser,
      s.Ahead [.keyword .breakWord, .symbol .semicolon] s' →
      (s.loopDepth ≠ 0 → ∃ t,
        Stmt.parse s = .ok (.breakLoop s.line) t) ∧
      (s.loopDepth = 0 →
        ∃ t, Stmt.parse s =
          .error ⟨.misplacedBreak, s.line⟩ t)) ∧
    (∀ s fault t,
      Stmt.loopBody Stmt.parse s = .error fault t →
      fault.cause ≠ .misplacedBreak) := by
  refine ⟨?_, fun _ _ _ => topLevel_neutral,
    fun _ _ _ => scoped_of_read,
    fun _ _ => Stmt.parse_break, fun _ _ _ =>
      Stmt.loopBody_spares Stmt.parse_leads⟩
  intro s st s' hOk
  have hRead : st.Read s.context s'.context :=
    (Stmt.parse_leads s.context).of_ok s st s' rfl hOk
  exact hRead.gains

theorem sample_names_lexical :
    ∃ p s,
      Program.read sample = .ok p s ∧
        p.functions.length = 2 ∧
      s.scope.current = none ∧ s.loopDepth = 0 ∧
        ∀ f ∈ p.functions, f.Scoped := by
  rcases sample_lowers with ⟨p, _, hParse, -, hTwo, -⟩
  rcases exists_read hParse with ⟨s, hRead⟩
  exact ⟨p, s, hRead, hTwo,
    names_lexical.2.2.1 sample p s hRead⟩

end Program

end Bracketry
