import Bracketry.Proofs.Scope.Globals

/-
  This file compares scopes with a stack of maps.

  A scope keeps all frames and walks from one to the frame
  around it.  Seen from outside it is a stack: entering
  pushes an empty map from names to variables, leaving pops
  one.  Beside the stack stands a table of functions, which
  only grows.  Frames are numbered in order of opening, so a
  walk outward only meets smaller numbers.

  Main declarations:
    * `Frame.Chain` and `Scope.Shows`
    * `Scope.Shows.run` and `Scope.refines_stack`
-/

namespace Bracketry

variable {k : Nat}

/- What can be asked of the names that are known. -/
inductive Request where
| enter
| leave
| declare (x : Identifier)
| lookup (name : String)
| declarePrototype
    (name : Identifier) (params : List Identifier)
      (line : Nat)
| prototypeFor (name : String)

/- What a request is answered with. -/
inductive Answer where
| number (n : Nat)
| done
| refused (fault : Fault)
| referent (found : Option Referent)
| position (found : Option Nat)
deriving DecidableEq

/- The answers to several requests, and the state left. -/
def Request.run
    {σ : Type}
    (perform : σ → Request → Answer × σ) :
    σ → List Request → List Answer × σ
| s, [] => ([], s)
| s, request :: rest =>
    let first := perform s request
    let others := Request.run perform first.2 rest
    (first.1 :: others.1, others.2)

/- The answer that a step gives, and the state it leaves. -/
def Answer.ofResult
    {σ α : Type}
    (answer : α → Answer) :
    EStateM.Result Fault σ α → Answer × σ
| .ok a after => (answer a, after)
| .error fault after => (.refused fault, after)

/- A scope is asked something. -/
def Scope.perform
    (s : Scope) :
    Request → Answer × Scope
| .enter => (.number s.enter.1, s.enter.2)
| .leave => (.done, s.leave)
| .declare x =>
    Answer.ofResult (fun _ => .done) (addVariable x s)
| .lookup name => (.referent (s.lookup name), s)
| .declarePrototype name params line =>
    Answer.ofResult (fun p => .number p.id)
      (onGlobals (Globals.addPrototype name params line) s)
| .prototypeFor name =>
    (.position ((s.globals.prototype? name).map (·.id)), s)

/-
  The number of blocks opened so far, a map from names for
  each open block, innermost first, and the functions in
  order of declaration.
-/
structure NameStack where
  opened : Nat
  blocks : List (String → Option Identifier)
  functions : List Prototype

namespace NameStack

/- No block was opened, and nothing is declared. -/
def empty : NameStack :=
  ⟨0, [], []⟩

/- Where the function of a name is in the table. -/
def position?
    (r : NameStack)
    (name : String) : Option Nat :=
  r.functions.findIdx? fun p => p.name.name = name

/- The innermost variable of a name, or its function. -/
def lookup
    (r : NameStack)
    (name : String) : Option Referent :=
  match r.blocks.findSome? (fun block => block name) with
  | some x => some (.var x)
  | none =>
      ((r.position? name).bind (r.functions[·]?)).map .func

/- A stack is asked something. -/
def perform
    (r : NameStack) :
    Request → Answer × NameStack
| .enter =>
    (.number r.opened,
      { r with
        opened := r.opened + 1
        blocks := (fun _ => none) :: r.blocks })
| .leave => (.done, { r with blocks := r.blocks.tail })
| .declare x =>
    match r.blocks with
    | [] =>
        (.refused (.ofTypes (.outsideFunction x.name)
          x.line), r)
    | top :: rest =>
        if (top x.name).isSome then
          (.refused ⟨.redeclared x.name, x.line⟩, r)
        else
          let added := fun name => if name = x.name then
            some x else top name
          (.done, { r with blocks := added :: rest })
| .lookup name => (.referent (r.lookup name), r)
| .declarePrototype name params line =>
    if (r.position? name.name).isSome then
      (.refused ⟨.redeclared name.name, line⟩, r)
    else
      let id := r.functions.length
      (.number id,
        { r with
          functions := r.functions ++
            [⟨id, name, params, false, line⟩] })
| .prototypeFor name => (.position (r.position? name), r)

end NameStack

------------------------------------------------------------
-- Chains of Frames
------------------------------------------------------------

namespace Frame

/-
  The numbers of the frames from a given one outward.  Each
  frame is older than the frames inside it.
-/
inductive Chain (frames : List Frame) : Option Nat →
    List Nat → Prop
| nil :
    Chain frames none []
| cons {k : Nat} {frame : Frame} {outer : List Nat}
    (hFrame : frames[k]? = some frame)
    (hOlder : ∀ l ∈ outer, l < k)
    (hOuter : Chain frames frame.parent outer) :
    Chain frames (some k) (k :: outer)

namespace Chain

variable {frames frames' : List Frame} {start : Option Nat}
variable {ks : List Nat}

theorem lt_length
    (hChain : Chain frames start ks) :
    ∀ k ∈ ks, k < frames.length := by
  induction hChain with
  | nil => simp
  | cons hFrame _ _ ih =>
      exact List.forall_mem_cons.mpr
        ⟨(List.getElem?_eq_some_iff.mp hFrame).1, ih⟩

/- The walk outward meets the chain, in order. -/
theorem outward_eq
    {steps : Nat}
    (hChain : Chain frames start ks)
    (hSteps : ∀ k ∈ ks, k < steps) :
    Scope.outward frames steps start =
      ks.filterMap (frames[·]?) := by
  induction hChain generalizing steps with
  | nil => cases steps <;> rfl
  | @cons k frame outer hFrame hOlder _ ih =>
      have hAbove := hSteps k List.mem_cons_self
      rcases Nat.exists_eq_add_one_of_ne_zero
        (Nat.ne_zero_of_lt hAbove) with
        ⟨rest, rfl⟩
      -- the frames around come before this one, so one step
      -- less is enough
      have hOuter : ∀ l ∈ outer, l < rest := by
        intro l hMem
        have := hOlder l hMem
        omega
      rw [Scope.outward, hFrame,
        List.filterMap_cons_some hFrame]
      exact congrArg (frame :: ·) (ih hOuter)

/- Only the frames around each frame matter. -/
theorem of_parents
    (hChain : Chain frames start ks)
    (hParents :
      ∀ (k : Nat) (frame : Frame), frames[k]? = some frame →
        ∃ frame', frames'[k]? = some frame' ∧
          frame'.parent = frame.parent) :
    Chain frames' start ks := by
  induction hChain with
  | nil => exact .nil
  | cons hFrame hOlder _ ih =>
      rcases hParents _ _ hFrame with
        ⟨frame', hFrame', hParent⟩
      exact .cons hFrame' hOlder (hParent ▸ ih)

/- An open frame is on the chain of the current one. -/
theorem mem_of_open
    {s : Scope}
    (hChain : Chain s.frames s.current ks)
    (hOpen : s.Open k) :
    k ∈ ks := by
  -- every frame of a chain has the rest of the chain around
  -- it
  have hSuffix :
      ∃ inner outer, ks = inner ++ k :: outer ∧
        Chain s.frames (some k) (k :: outer) := by
    induction hOpen with
    | @current k hCurrent =>
        rw [hCurrent] at hChain
        cases hChain with
        | cons hFrame hOlder hOuter =>
            exact ⟨[], _, rfl, .cons hFrame hOlder hOuter⟩
    | @outer k l frame _ hFrame hParent ih =>
        rcases ih with ⟨inner, outer, hSplit, hRest⟩
        cases hRest with
        | cons hFound _ hOuter =>
            rw [hFrame] at hFound
            cases hFound
            rw [hParent] at hOuter
            cases hOuter with
            | cons hFrame' hOlder' hOuter' =>
                refine ⟨inner ++ [k], _, ?_,
                  .cons hFrame' hOlder' hOuter'⟩
                rw [hSplit, List.append_assoc]
                rfl
  rcases hSuffix with ⟨inner, outer, rfl, -⟩
  simp

end Chain

end Frame

namespace Scope

variable {s : Scope} {fault : Fault}

/- The variables of a frame, by name. -/
def bindings
    (s : Scope)
    (k : Nat)
    (name : String) : Option Identifier :=
  s.frames[k]?.bind fun frame => frame.find? name

/-
  A scope shows a stack: the frames with the numbers `ks`
  are open, and their variables are the maps on the stack.
-/
structure Shows
    (s : Scope)
    (ks : List Nat)
    (r : NameStack) : Prop where
  chain : Frame.Chain s.frames s.current ks
  opened : r.opened = s.frames.length
  blocks : r.blocks = ks.map s.bindings
  functions : r.functions = s.globals.prototypes
  numbered : s.globals.Numbered

namespace Shows

variable {s : Scope} {ks : List Nat} {r : NameStack}

theorem empty :
    Shows .empty [] .empty :=
  ⟨.nil, rfl, rfl, rfl, Globals.Numbered.empty⟩

/- Variables are found in the innermost map. -/
theorem var?_eq
    (hShows : s.Shows ks r)
    (name : String) :
    s.var? name = r.blocks.findSome? fun block =>
      block name := by
  rw [Scope.var?, visible, hShows.chain.outward_eq
    hShows.chain.lt_length,
    hShows.blocks, List.findSome?_map,
      ← List.head?_filterMap,
    List.filterMap_filterMap, List.head?_filterMap]
  rfl

/- The number of a function is its place in the table. -/
theorem prototype?_eq
    (hShows : s.Shows ks r)
    (name : String) :
    s.globals.prototype? name =
        (r.position? name).bind (r.functions[·]?) ∧
      (s.globals.prototype? name).map (·.id) =
        r.position? name := by
  rw [Globals.prototype?, NameStack.position?,
    hShows.functions]
  cases hAt :
      s.globals.prototypes.findIdx? fun p => p.name.name =
        name with
  | none =>
      rw [List.findIdx?_eq_none_iff] at hAt
      rw [List.find?_eq_none.mpr
        fun p hMem => by simp [hAt p hMem]]
      exact ⟨rfl, rfl⟩
  | some i =>
      rcases List.findIdx?_eq_some_iff_getElem.mp hAt with
        ⟨hLt, hName, hBefore⟩
      have hFind :
          s.globals.prototypes.find?
            (fun p => p.name.name = name) =
            some s.globals.prototypes[i] :=
        List.find?_eq_some_iff_getElem.mpr
          ⟨hName, i, hLt, rfl,
            fun j hj => by simp [hBefore j hj]⟩
      have hGet := List.getElem?_eq_getElem hLt
      rw [hFind]
      exact ⟨hGet.symm,
        congrArg some (hShows.numbered i _ hGet)⟩

theorem lookup_eq
    (hShows : s.Shows ks r)
    (name : String) :
    s.lookup name = r.lookup name := by
  rw [Scope.lookup, NameStack.lookup, hShows.var?_eq]
  cases r.blocks.findSome? (fun block => block name) with
  | some x => rfl
  | none =>
      exact congrArg (Option.map Referent.func)
        (hShows.prototype?_eq name).1

end Shows

------------------------------------------------------------
-- One Request
------------------------------------------------------------

/-
  What one request does: both sides answer alike, the scope
  shows the new stack, and a frame that is open now was open
  before or is new.
-/
structure Follows
    (s : Scope)
    (ks : List Nat)
    (r : NameStack)
    (request : Request) : Prop where
  answer : (s.perform request).1 = (r.perform request).1
  shown :
    ∃ ks', (s.perform request).2.Shows ks'
      (r.perform request).2 ∧
      ∀ k ∈ ks', k ∈ ks ∨ s.frames.length ≤ k
  grows : s.frames.length ≤
    (s.perform request).2.frames.length

namespace Shows

variable {s : Scope} {ks : List Nat} {r : NameStack}
variable {x : Identifier}

/- A request that only asks changes nothing. -/
theorem follows_of_same
    {request : Request}
    (hShows : s.Shows ks r)
    (hAnswer :
      (s.perform request).1 = (r.perform request).1)
    (hScope : (s.perform request).2 = s)
    (hStack : (r.perform request).2 = r) :
    s.Follows ks r request := by
  refine ⟨hAnswer, ⟨ks, ?_, fun _ => .inl⟩, ?_⟩
  · rw [hScope, hStack]
    exact hShows
  · exact Nat.le_of_eq (by rw [hScope])

theorem enter
    (hShows : s.Shows ks r) :
    s.Follows ks r .enter := by
  have hKept :
      ∀ k ∈ ks, s.enter.2.frames[k]? = s.frames[k]? :=
    fun k hMem =>
      List.getElem?_append_left
        (hShows.chain.lt_length k hMem)
  have hParents :
      ∀ (k : Nat) (frame : Frame), s.frames[k]? =
        some frame →
          ∃ frame', s.enter.2.frames[k]? = some frame' ∧
          frame'.parent = frame.parent :=
    fun _ frame hFrame =>
      ⟨frame, Extends.getElem?_enter hFrame, rfl⟩
  have hLength : s.enter.2.frames.length =
    s.frames.length + 1 :=
    List.length_append
  refine ⟨congrArg Answer.number hShows.opened.symm, ?_, ?_⟩
  · refine ⟨s.frames.length :: ks, ⟨?_, ?_, ?_, ?_, ?_⟩, ?_⟩
    · exact .cons (Extends.getElem?_opened s)
        hShows.chain.lt_length
        (hShows.chain.of_parents hParents)
    · change r.opened + 1 = s.enter.2.frames.length
      rw [hLength, hShows.opened]
    · change (fun _ => none) :: r.blocks = _
      have hOld : ks.map s.enter.2.bindings =
          ks.map s.bindings := by
        apply List.map_congr_left
        intro k hMem
        funext name
        rw [bindings, bindings, hKept k hMem]
      have hNew : s.enter.2.bindings s.frames.length =
          fun _ => none := by
        funext name
        rw [bindings, Extends.getElem?_opened]
        rfl
      change _ =
        s.enter.2.bindings _ :: ks.map s.enter.2.bindings
      rw [hOld, hNew, hShows.blocks]
    · exact hShows.functions
    · exact hShows.numbered
    · intro k hMem
      rcases List.mem_cons.mp hMem with rfl | hOld
      · exact .inr (Nat.le_refl _)
      · exact .inl hOld
  · change s.frames.length ≤ s.enter.2.frames.length
    omega

/- Going back to the frame around pops a map. -/
theorem left
    (hShows : s.Shows ks r) :
    s.leave.Shows ks.tail
      { r with blocks := r.blocks.tail } := by
  refine ⟨?_, hShows.opened, ?_, hShows.functions,
    hShows.numbered⟩
  · have hChain := hShows.chain
    change Frame.Chain s.frames
      (s.current.bind fun k => s.frames[k]?.bind (·.parent))
        ks.tail
    generalize s.current = start at hChain
    cases hChain with
    | nil => exact .nil
    | cons hFrame _ hOuter =>
        rw [Option.bind_some, hFrame]
        exact hOuter
  · change r.blocks.tail = ks.tail.map s.bindings
    rw [hShows.blocks, List.map_tail]

theorem leave
    (hShows : s.Shows ks r) :
    s.Follows ks r .leave :=
  ⟨rfl,
    ⟨ks.tail, hShows.left,
      fun _ hMem => .inl (List.mem_of_mem_tail hMem)⟩,
    Nat.le_refl _⟩

/- The names of a frame, once a variable is added. -/
theorem bindings_declared
    {frame : Frame}
    (hFrame : s.frames[k]? = some frame)
    (s' : Scope)
    (hFrames :
      s'.frames = s.frames.modify k fun frame =>
        { frame with declared := x :: frame.declared }) :
    s'.bindings k =
      fun name => if name = x.name then some x else
        s.bindings k name := by
  funext name
  rw [bindings, bindings, hFrames, getElem?_declared x
    hFrame, hFrame, Option.bind_some, Option.bind_some,
      Frame.find?, List.find?_cons]
  by_cases hName : name = x.name
  · simp [hName]
  · rw [if_neg hName, decide_eq_false (Ne.symm hName)]
    rfl

/- A new name is bound in the innermost map. -/
theorem declare_new
    (hShows : s.Shows ks r)
    (hCurrent : s.current = some k)
    (hNew : s.bindings k x.name = none) :
    s.Follows ks r (.declare x) := by
  have hFind : s.frames[k]?.bind (·.find? x.name) = none :=
    hNew
  let s' : Scope :=
    { s with
      frames := s.frames.modify k fun frame =>
        { frame with declared := x :: frame.declared } }
  have hScope : s.perform (.declare x) = (.done, s') := by
    simp [Scope.perform, addVariable, Answer.ofResult,
      hCurrent, hFind, s']
  have hExtends : s.Extends s' := by
    apply Extends.declare (x := x)
    simp [Scope.declare_eq, hCurrent, hFind, s']
  have hLength : s'.frames.length = s.frames.length :=
    List.length_modify ..
  have hChain := hShows.chain
  rw [hCurrent] at hChain
  cases hChain with
  | @cons _ frame outer hFrame hOlder hOuter =>
      have hBlocks :
          r.blocks = s.bindings k :: outer.map s.bindings :=
        hShows.blocks
      have hStack :
          r.perform (.declare x) =
            (.done, { r with
              blocks := (fun name =>
                if name = x.name then some x else
                  s.bindings k name) ::
                  outer.map s.bindings }) := by
        simp [NameStack.perform, hBlocks, hNew]
      refine ⟨by rw [hScope, hStack],
        ⟨k :: outer, ?_, fun _ => .inl⟩, ?_⟩
      · rw [hScope, hStack]
        refine ⟨?_, ?_, ?_, hShows.functions,
          hShows.numbered⟩
        · change Frame.Chain s'.frames s.current
            (k :: outer)
          refine hShows.chain.of_parents ?_
          intro l old hOld
          rcases hExtends.frames l old hOld with
            ⟨frame', hAt, hParent, -⟩
          exact ⟨frame', hAt, hParent⟩
        · exact hShows.opened.trans hLength.symm
        · -- the frames around keep their variables
          have hOthers : outer.map s'.bindings =
              outer.map s.bindings := by
            apply List.map_congr_left
            intro l hMem
            have hNe : k ≠ l := Nat.ne_of_gt (hOlder l hMem)
            have hKept : s'.frames[l]? = s.frames[l]? := by
              simp [s', hNe]
            funext name
            rw [bindings, bindings, hKept]
          change _ = s'.bindings k :: outer.map s'.bindings
          rw [hOthers, bindings_declared hFrame s' rfl]
      · exact Nat.le_of_eq (by rw [hScope, hLength])

theorem declare
    (hShows : s.Shows ks r)
    (x : Identifier) :
    s.Follows ks r (.declare x) := by
  have hChain := hShows.chain
  have hBlocks := hShows.blocks
  cases hCurrent : s.current with
  | none =>
      rw [hCurrent] at hChain
      cases hChain
      apply hShows.follows_of_same
      · simp [Scope.perform, addVariable, Answer.ofResult,
          hCurrent, NameStack.perform, hBlocks]
      · simp [Scope.perform, addVariable, Answer.ofResult,
          hCurrent]
      · simp [NameStack.perform, hBlocks]
  | some k =>
      cases hFound : s.bindings k x.name with
      | none => exact hShows.declare_new hCurrent hFound
      | some y =>
          have hFind : s.frames[k]?.bind (·.find? x.name) =
            some y :=
            hFound
          rw [hCurrent] at hChain
          cases hChain
          apply hShows.follows_of_same
          · simp [Scope.perform, addVariable,
              Answer.ofResult, hCurrent, hFind,
                NameStack.perform, hBlocks, hFound]
          · simp [Scope.perform, addVariable,
              Answer.ofResult, hCurrent, hFind]
          · simp [NameStack.perform, hBlocks, hFound]

theorem declarePrototype
    (hShows : s.Shows ks r)
    (name : Identifier)
    (params : List Identifier)
    (line : Nat) :
    s.Follows ks r
      (.declarePrototype name params line) := by
  have hPosition := (hShows.prototype?_eq name.name).2
  cases hFound : s.globals.prototype? name.name with
  | some p =>
      rw [hFound] at hPosition
      apply hShows.follows_of_same
      · simp [Scope.perform, onGlobals,
          Globals.addPrototype,
          Answer.ofResult, hFound, NameStack.perform,
            ← hPosition]
      · simp [Scope.perform, onGlobals,
          Globals.addPrototype, Answer.ofResult, hFound]
      · simp [NameStack.perform, ← hPosition]
  | none =>
      rw [hFound] at hPosition
      let p : Prototype :=
        ⟨s.globals.prototypes.length, name, params,
          false, line⟩
      let g : Globals :=
        { s.globals with
          prototypes := s.globals.prototypes ++ [p] }
      have hOk :
          s.globals.declarePrototype name params line =
            .ok (p, g) := by
        simp [Globals.declarePrototype_eq, hFound, p, g]
      have hScope :
          s.perform (.declarePrototype name params line) =
            (.number p.id, { s with globals := g }) := by
        simp [Scope.perform, onGlobals,
          Globals.addPrototype,
          Answer.ofResult, hFound, p, g]
      have hStack :
          r.perform (.declarePrototype name params line) =
            (.number p.id,
              { r with functions := g.prototypes }) := by
        simp [NameStack.perform, ← hPosition,
          hShows.functions, p, g]
      refine ⟨by rw [hScope, hStack],
        ⟨ks, ?_, fun _ => .inl⟩, ?_⟩
      · rw [hScope, hStack]
        exact ⟨hShows.chain, hShows.opened, hShows.blocks,
          rfl, (hShows.numbered.declarePrototype hOk).1⟩
      · exact Nat.le_of_eq (by rw [hScope])

/- Every request is followed. -/
theorem perform
    (hShows : s.Shows ks r)
    (request : Request) :
    s.Follows ks r request := by
  cases request with
  | enter => exact hShows.enter
  | leave => exact hShows.leave
  | declare x => exact hShows.declare x
  | lookup name =>
      exact hShows.follows_of_same
        (congrArg Answer.referent (hShows.lookup_eq name))
          rfl rfl
  | declarePrototype name params line =>
      exact hShows.declarePrototype name params line
  | prototypeFor name =>
      exact hShows.follows_of_same
        (congrArg Answer.position
          (hShows.prototype?_eq name).2) rfl rfl

/-
  So is every run.  A frame that is open in the end was open
  at the start, or was opened on the way.
-/
theorem run
    (hShows : s.Shows ks r)
    (requests : List Request) :
    (Request.run Scope.perform s requests).1 =
        (Request.run NameStack.perform r requests).1 ∧
      ∃ ks',
        (Request.run Scope.perform s requests).2.Shows ks'
            (Request.run NameStack.perform r requests).2 ∧
          ∀ k ∈ ks', k ∈ ks ∨ s.frames.length ≤ k := by
  induction requests generalizing s ks r with
  | nil => exact ⟨rfl, ks, hShows, fun _ => .inl⟩
  | cons request rest ih =>
      have hStep := hShows.perform request
      rcases hStep.shown with ⟨ks₁, hShows₁, hFrom₁⟩
      rcases ih hShows₁ with
        ⟨hAnswers, ks', hShows', hFrom'⟩
      refine ⟨congr (congrArg List.cons hStep.answer)
        hAnswers, ks', hShows', ?_⟩
      intro k hMem
      rcases hFrom' k hMem with hOld | hNew
      · exact hFrom₁ k hOld
      · exact .inr (Nat.le_trans hStep.grows hNew)

/- A frame that is left is not opened again. -/
theorem not_open_of_leave
    (hShows : s.Shows ks r)
    (hCurrent : s.current = some k)
    (later : List Request) :
    ¬ (Request.run Scope.perform s.leave later).2.Open
      k := by
  have hChain := hShows.chain
  rw [hCurrent] at hChain
  cases hChain with
  | @cons _ frame outer hFrame hOlder hOuter =>
      rcases (hShows.left.run later).2 with
        ⟨ks', hShows', hFrom⟩
      intro hOpen
      rcases hFrom k (hShows'.chain.mem_of_open hOpen) with
        hOld | hNew
      · exact Nat.lt_irrefl k (hOlder k hOld)
      · have hLt := (List.getElem?_eq_some_iff.mp hFrame).1
        exact Nat.lt_irrefl k (Nat.lt_of_lt_of_le hLt hNew)

end Shows

/- A step that is refused left the state as it was. -/
theorem ofResult_of_refused
    {α : Type}
    {line : Nat}
    {step : EStateM Fault Scope α}
    {answer : α → Answer}
    (hRefuses : Refuses line step)
    (hAnswer : ∀ a, answer a ≠ .refused fault)
    (hRefused :
      (Answer.ofResult answer (step s)).1 =
        .refused fault) :
    (Answer.ofResult answer (step s)).2 = s := by
  cases hStep : step s with
  | ok a after =>
      rw [hStep] at hRefused
      exact absurd hRefused (hAnswer a)
  | error found after => exact (hRefuses _ _ _ hStep).1

/- A request that is refused changes nothing. -/
theorem perform_of_refused
    {request : Request}
    (hRefused : (s.perform request).1 = .refused fault) :
    (s.perform request).2 = s := by
  cases request with
  | declare x =>
      exact ofResult_of_refused (addVariable_refuses x)
        (fun _ => Answer.noConfusion) hRefused
  | declarePrototype name params line =>
      exact ofResult_of_refused
        (onGlobals_refuses
          (Globals.addPrototype_refuses _ _ _))
        (fun _ => Answer.noConfusion) hRefused
  | _ => cases hRefused

/-
  A scope refines a stack of maps.  Whatever a new scope is
  asked, it answers as the stack does.  Functions stand at
  their own numbers; what a name stands for is declared in
  an open frame, and a frame that is left is never open
  again; to leave where nothing is open changes nothing, nor
  does what is refused.
-/
theorem refines_stack
    (requests : List Request) :
    (Request.run perform .empty requests).1 =
        (Request.run NameStack.perform .empty requests).1 ∧
      let s := (Request.run perform .empty requests).2
      (∀ (id : Nat) (p : Prototype),
        s.globals.prototypes[id]? = some p → p.id = id) ∧
      (∀ (name : String) (x : Identifier),
        s.lookup name = some (.var x) → s.InSight x) ∧
      (∀ k, s.current = some k →
        ∀ later,
          ¬ (Request.run perform s.leave later).2.Open k) ∧
      (s.current = none → s.leave = s) ∧
      ∀ (request : Request) (fault : Fault),
        (s.perform request).1 = .refused fault →
          (s.perform request).2 = s := by
  rcases Shows.empty.run requests with
    ⟨hAnswers, ks, hShows, -⟩
  refine ⟨hAnswers, hShows.numbered, ?_, ?_, ?_, ?_⟩
  · exact fun name x hLookup => inSight_of_lookup hLookup
  · exact fun k hCurrent later =>
      hShows.not_open_of_leave hCurrent later
  · intro hNone
    have hLeave :
        ∀ s : Scope, s.current = none → s.leave = s := by
      rintro ⟨frames, current, globals⟩ rfl
      rfl
    exact hLeave _ hNone
  · exact fun request fault => perform_of_refused

end Scope

end Bracketry
