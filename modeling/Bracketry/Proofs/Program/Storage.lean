import Bracketry.Proofs.Program.Consistency

/-
  This file shows that names in generated code tell
  variables apart.

  All frames of a program are kept while it is read, so what
  was declared in a function can be listed at the end.  No
  two of these declarations share a slot, however they are
  spelled, and no name of the code of a function is given
  twice.

  Main declarations:
    * `Definition.names` and `FunctionDef.Separates`
    * `FunctionDef.names_of_lower`
    * `Program.storage_separates`
-/

namespace Bracketry

open Value (register)

variable {scope : Scope} {x : Identifier}

/- The binding of a variable of a given function. -/
def Binding.isBlockOf
    (function : String) :
    Binding → Bool
| .block other _ => other == function
| _ => false

variable {function : String}

theorem Binding.isBlockOf_eq_true
    {binding : Binding} :
    binding.isBlockOf function = true ↔
      ∃ k, binding = .block function k := by
  cases binding <;> simp [isBlockOf]

/- All declarations of variables in blocks of a function. -/
def Scope.locals
    (scope : Scope)
    (function : String) : List Identifier :=
  (scope.frames.flatMap Frame.declared).filter
    fun x => x.binding.isBlockOf function

/-
  All declarations of a function: its parameters, then what
  was declared in its blocks, frame by frame.
-/
def FunctionDef.declarations
    (scope : Scope)
    (f : FunctionDef) : List Identifier :=
  f.signature.params ++ scope.locals f.signature.name.name

theorem Scope.mem_locals :
    x ∈ scope.locals function ↔
      x ∈ scope.frames.flatMap Frame.declared ∧
        ∃ k, x.binding = .block function k := by
  rw [locals, List.mem_filter, Binding.isBlockOf_eq_true]

/- Variables of one function do not share slots. -/
theorem Scope.Ordered.locals_nodup
    (hOrdered : scope.Ordered)
    (function : String) :
    ((scope.locals function).map
      Identifier.storage).Nodup := by
  -- frames hold variables of other functions too, so the
  -- claim is about those bound in this one
  have hFrames :
      (scope.frames.flatMap Frame.declared).Pairwise
        fun x y =>
          (∃ k, x.binding = .block function k) →
            (∃ k, y.binding = .block function k) →
            x.storage ≠ y.storage := by
    refine List.pairwise_flatMap.mpr ⟨?_, ?_⟩
    · intro frame hMem
      rcases List.mem_iff_getElem?.mp hMem with ⟨k, hFrame⟩
      refine (List.pairwise_map.mp
        (hOrdered k frame hFrame).names).imp ?_
      intro x y hNe hFirst hSecond hEq
      exact hNe (Identifier.same_of_storage (.inr hFirst)
        (.inr hSecond) hEq).1
    · refine List.pairwise_iff_getElem.mpr ?_
      intro i j hi hj hLt x hX y hY hFirst hSecond hEq
      have hSame :=
        (Identifier.same_of_storage (.inr hFirst)
          (.inr hSecond) hEq).2
      rcases hFirst with ⟨k, hBlock⟩
      rcases (hOrdered i _
        (List.getElem?_eq_getElem hi)).bound x hX with
        hArgument | ⟨f, hHere⟩
      · cases hBlock.symm.trans hArgument
      · rcases (hOrdered j _
          (List.getElem?_eq_getElem hj)).bound y hY
          with hArgument | ⟨g, hThere⟩
        · cases hHere.symm.trans (hSame.trans hArgument)
        · cases hHere.symm.trans (hSame.trans hThere)
          exact Nat.lt_irrefl _ hLt
  refine List.pairwise_map.mpr
    ((hFrames.filter _).imp_of_mem ?_)
  intro x y hX hY hApart
  exact hApart (Scope.mem_locals.mp hX).2
    (Scope.mem_locals.mp hY).2

namespace FunctionDef

variable {scope : Scope} {f : FunctionDef}

/- Declarations are bound in their function. -/
theorem boundIn_of_mem
    (hArguments : ∀ x ∈ f.signature.params,
      x.binding = .argument)
    (hMem : x ∈ f.declarations scope) :
    x.BoundIn f.signature.name.name := by
  rcases List.mem_append.mp hMem with hParam | hBlock
  · exact .inl (hArguments x hParam)
  · exact .inr (Scope.mem_locals.mp hBlock).2

/- No two declarations of a function share a slot. -/
theorem storage_nodup
    (hOrdered : scope.Ordered)
    (hArguments : ∀ x ∈ f.signature.params,
      x.binding = .argument)
    (hNames :
      (f.signature.params.map Identifier.name).Nodup) :
    ((f.declarations scope).map
      Identifier.storage).Nodup := by
  rw [declarations, List.map_append]
  refine List.nodup_append.mpr
    ⟨?_, hOrdered.locals_nodup f.signature.name.name, ?_⟩
  · refine List.pairwise_map.mpr
      ((List.pairwise_map.mp hNames).imp_of_mem ?_)
    intro x y hX hY hNe hEq
    have hFirst : x.BoundIn f.signature.name.name :=
      .inl (hArguments x hX)
    exact hNe (Identifier.same_of_storage hFirst
      (.inl (hArguments y hY)) hEq).1
  · intro first hFirst second hSecond hEq
    rcases List.mem_map.mp hFirst with ⟨x, hX, rfl⟩
    rcases List.mem_map.mp hSecond with ⟨y, hY, rfl⟩
    rcases (Scope.mem_locals.mp hY).2 with ⟨k, hBlock⟩
    have hArgument := hArguments x hX
    have hSame :=
      Identifier.same_of_storage (.inl hArgument)
      (.inr ⟨k, hBlock⟩) hEq
    cases hArgument.symm.trans (hSame.2.trans hBlock)

/- All variables mentioned are declared. -/
theorem Begun.mem_declarations
    {final : Globals}
    {base : Nat}
    {c₁ c₂ : Context}
    {sts : List Stmt}
    {start : Nat}
    (hBegun : f.Begun final base c₁)
    (hBody : f.body = .ofList sts start)
    (hAll : Stmt.ReadAll c₁ sts c₂)
    (hKept : c₂.scope.KeptIn scope) :
    ∀ x ∈ f.signature.params ++ f.body.variables,
      x ∈ f.declarations scope := by
  intro x hMem
  have hHolds := hBegun.holds hBody hAll x hMem
  have hLocal := (hAll.inside hBegun.inside).scope
  rcases hLocal.boundIn hHolds with hArgument | hBlock
  · exact List.mem_append_left _
      (hBegun.held x
        (hAll.carried (Stmt.holds_carried hArgument)
          hHolds))
  · exact List.mem_append_right _
      (Scope.mem_locals.mpr
        ⟨hKept.mem_declared hHolds, hBlock⟩)

end FunctionDef

------------------------------------------------------------
-- Names
------------------------------------------------------------

/- The name of a slot has a dot, unlike that of a label. -/
theorem Identifier.storage_ne_target
    (hBound : x.BoundIn function)
    (l : Label) :
    x.storage ≠ l.target := by
  rcases hBound with hArgument | ⟨k, hBlock⟩
  · rw [storage_of_argument hArgument]
    exact (l.target_ne_dotted _ _).symm
  · rw [storage_of_block hBlock]
    exact (l.target_ne_dotted _ _).symm

/- All names that the code of a function gives. -/
def Definition.names (d : Definition) : List String :=
  d.signature.params.map (·.incoming.text) ++
    Line.names d.lines

namespace FunctionDef

variable {f : FunctionDef} {b b' : Builder} {d : Definition}

/- Slots are those of parameters and variables. -/
theorem mem_of_reach
    {slot : String}
    (hSlot : slot ∈ f.reach.slots) :
    ∃ x ∈ f.signature.params ++ f.body.variables,
      x.storage = slot :=
  List.mem_map.mp hSlot

/- The code of a function gives no name twice. -/
theorem names_of_lower
    (hOk : f.lower b = .ok d b')
    (hBound :
      ∀ x ∈ f.signature.params ++ f.body.variables,
        x.BoundIn f.signature.name.name)
    (hNames :
      (f.signature.params.map Identifier.name).Nodup) :
    d.names.Nodup := by
  rcases emits_of_lower hOk with ⟨hEmits, hSignature⟩
  rcases hEmits.slots_eq with ⟨-, hSlots, hReach⟩
  have hDests : (Line.dests d.lines).Nodup := by
    rw [hEmits.dests_eq.2]
    exact List.nodup_range'
  have hLines : (Line.names d.lines).Nodup := by
    refine Line.names_nodup (labels_of_lower hOk).1 hSlots
      hDests ?_
    intro slot hMem
    rcases mem_of_reach (hReach slot hMem).1 with
      ⟨x, hIn, rfl⟩
    exact ⟨Identifier.storage_ne_register (hBound x hIn),
      Identifier.storage_ne_target (hBound x hIn)⟩
  rw [Definition.names, hSignature]
  refine List.nodup_append.mpr ⟨?_, hLines, ?_⟩
  · exact List.pairwise_map.mpr
      ((List.pairwise_map.mp hNames).imp
      fun hNe hEq => hNe (Identifier.name_of_incoming hEq))
  · intro first hFirst second hSecond
    rcases List.mem_map.mp hFirst with ⟨y, -, rfl⟩
    have hMem :=
      (Line.names_perm d.lines).mem_iff.mp hSecond
    simp only [List.mem_append, List.mem_map] at hMem
    rcases hMem with ⟨l, -, rfl⟩ | hSlot | ⟨n, -, rfl⟩
    · rw [Identifier.text_incoming]
      exact (l.target_ne_dotted _ _).symm
    · rcases mem_of_reach (hReach second hSlot).1 with
        ⟨x, hIn, rfl⟩
      exact Identifier.incoming_ne_storage y (hBound x hIn)
    · exact y.incoming_ne_register n

/- Memory is accessed by name only in slots within reach. -/
theorem accessed_of_lower
    (hOk : f.lower b = .ok d b')
    {i : Instruction}
    {slot : String}
    (hMem : .instruction i ∈ d.lines)
    (hSlot : slot ∈ i.accessed?) :
    slot ∈ f.reach.slots := by
  by_contra hOut
  exact (emits_of_lower hOk).1.avoids hOut i hMem hSlot

/-
  The code `d` of a function, all of whose declarations are
  found in a given scope, keeps them apart.
-/
structure Separates
    (scope : Scope)
    (f : FunctionDef)
    (d : Definition) : Prop where
  injective :
    ((f.declarations scope).map Identifier.storage).Nodup
  mentioned :
    ∀ x ∈ f.signature.params ++ f.body.variables,
      x ∈ f.declarations scope
  accessed :
    ∀ i, .instruction i ∈ d.lines → ∀ slot ∈ i.accessed?,
      ∃ x ∈ f.declarations scope, x.storage = slot
  allocated :
    (Line.slots d.lines).Nodup ∧
      ∀ slot ∈ Line.slots d.lines,
        ∃ x ∈ f.declarations scope, x.storage = slot
  apart :
    ∀ x ∈ f.declarations scope,
      (∀ y : Identifier, x.storage ≠ y.incoming.text) ∧
        (∀ n, x.storage ≠ register n) ∧
        ∀ l : Label, x.storage ≠ l.target
  names : d.names.Nodup

theorem separates_of_lower
    {final : Globals}
    {base : Nat}
    {c₁ c₂ : Context}
    {sts : List Stmt}
    {start : Nat}
    (hOrdered : scope.Ordered)
    (hBegun : f.Begun final base c₁)
    (hBody : f.body = .ofList sts start)
    (hAll : Stmt.ReadAll c₁ sts c₂)
    (hKept : c₂.scope.KeptIn scope)
    (hOk : f.lower b = .ok d b') :
    f.Separates scope d := by
  have hMentioned :=
    hBegun.mem_declarations hBody hAll hKept
  have hBound :
      ∀ x ∈ f.declarations scope,
        x.BoundIn f.signature.name.name :=
    fun x => boundIn_of_mem hBegun.arguments
  have hReach :
      ∀ slot ∈ f.reach.slots,
        ∃ x ∈ f.declarations scope, x.storage = slot := by
    intro slot hSlot
    rcases mem_of_reach hSlot with ⟨x, hIn, hEq⟩
    exact ⟨x, hMentioned x hIn, hEq⟩
  rcases (emits_of_lower hOk).1.slots_eq with
    ⟨-, hNodup, hSlots⟩
  constructor
  case injective =>
    exact storage_nodup hOrdered hBegun.arguments
      hBegun.names
  case mentioned => exact hMentioned
  case accessed =>
    exact fun i hMem slot hSlot =>
      hReach slot (accessed_of_lower hOk hMem hSlot)
  case allocated =>
    exact ⟨hNodup,
      fun slot hMem => hReach slot (hSlots slot hMem).1⟩
  case apart =>
    intro x hMem
    have hIn := hBound x hMem
    exact ⟨fun y =>
      (Identifier.incoming_ne_storage y hIn).symm,
      Identifier.storage_ne_register hIn,
      Identifier.storage_ne_target hIn⟩
  case names =>
    exact names_of_lower hOk
      (fun x hMem => hBound x (hMentioned x hMem))
        hBegun.names

end FunctionDef

/- Parameters are declared in frames like variables. -/
theorem Scope.Ordered.declares
    {s s' : Scope}
    {xs : List Identifier}
    (hOrdered : s.Ordered)
    (hDeclares : s.Declares xs s')
    (hArguments : ∀ x ∈ xs, x.binding = .argument) :
    s'.Ordered := by
  induction hDeclares with
  | nil => exact hOrdered
  | cons hFirst _ ih =>
      rcases List.forall_mem_cons.mp hArguments with
        ⟨hOne, hOthers⟩
      exact ih (hOrdered.declare (fun _ _ => .inl hOne)
        hFirst) hOthers

namespace Program

variable {s : Parser}

/- All frames of a program have their own variables only. -/
theorem Read.ordered
    {c c' : Context}
    {fs : List FunctionDef}
    (hRead : Read c fs c')
    (hOrdered : c.scope.Ordered) :
    c'.scope.Ordered := by
  have hHeader :
      ∀ {c c₁ : Context} {params : List Identifier}
        {scope : Scope} {returnType : Ty} {hasBody : Bool}
          {p : Prototype},
        c.scope.Ordered → Parameters c params scope →
        Headed { c with scope := scope } returnType params
          hasBody p c₁ →
        c₁.scope.Ordered := by
    intro c c₁ params scope returnType hasBody p hOrdered
      hParams hHead
    have hScope := hOrdered.enter.declares hParams.declared
      hParams.bound
    exact hScope.of_frames hHead.kept.2.1
  induction hRead with
  | nil => exact hOrdered
  | record _ _ _ _ _ ih => exact ih (hOrdered.of_frames rfl)
  | header _ hParams hHead _ ih =>
      exact ih
        ((hHeader hOrdered hParams hHead).of_frames rfl)
  | @function _ c₁ _ _ _ _ params p _ _ _ _ _ hParams hHead
      hBody _ ih =>
        have hStart :
            (c₁.enterFunction p params).scope.Ordered :=
          (hHeader hOrdered hParams hHead).of_frames rfl
        exact ih
          ((hBody.carried Stmt.ordered_carried
            hStart).of_frames rfl)

variable {source : String} {p : Program}

/- How a program that is read came about. -/
theorem read_of_read
    (hRead : Program.read source = .ok p s) :
    Read .start p.functions s.context ∧
      p.globals = s.scope.globals :=
  whole_leads.of_ok _ p s rfl hRead

theorem parse_of_read
    (hRead : Program.read source = .ok p s) :
    Program.parse source = .ok p := by
  rw [Program.parse, hRead]

/- What is parsed is read, and leaves a scope. -/
theorem exists_read
    (hParse : Program.parse source = .ok p) :
    ∃ s, Program.read source = .ok p s := by
  unfold Program.parse at hParse
  split at hParse
  · rename_i s hRead
    cases hParse
    exact ⟨s, hRead⟩
  · cases hParse

/-
  In what is compiled, slots identify declarations: all
  variables declared in a function have slots of their own,
  in which no other is stored, and no name is given twice.
-/
theorem storage_separates
    {source output : String}
    (hCompile : compile source = .ok output) :
    ∃ p s listing,
      Program.read source = .ok p s ∧
        p.lower = .ok listing ∧ output = listing.text ∧
        ∀ d ∈ listing.definitions, ∃ f ∈ p.functions,
          d.signature = f.signature ∧
            f.Separates s.scope d := by
  rcases compile_eq_ok hCompile with
    ⟨p, listing, hParse, hLower, hText⟩
  rcases exists_read hParse with ⟨s, hRead⟩
  rcases read_of_read hRead with ⟨hProgram, -⟩
  have hOrdered : s.context.scope.Ordered :=
    hProgram.ordered fun k frame hFrame => by cases hFrame
  rcases lower_eq_ok hLower with ⟨b, hAll⟩
  refine ⟨p, s, listing, hRead, hLower, hText, ?_⟩
  intro d hMem
  rcases FunctionDef.lower_of_mem hAll rfl d hMem with
    ⟨f, hFunction, b₁, b₂, -, hWritten⟩
  rcases hProgram.begunIn rfl .empty f hFunction with
    ⟨base, c₁, sts, start, c₂, hBegun, hBody,
      hStatements, hKept⟩
  exact ⟨f, hFunction,
    (FunctionDef.emits_of_lower hWritten).2,
    FunctionDef.separates_of_lower hOrdered hBegun hBody
      hStatements hKept hWritten⟩

theorem sample_separates :
    ∃ output,
      compile sample = .ok output ∧
      ∃ p s listing,
        Program.read sample = .ok p s ∧
          p.lower = .ok listing ∧ output = listing.text ∧
          listing.definitions.length = 2 ∧
          ∀ d ∈ listing.definitions, ∃ f ∈ p.functions,
            d.signature = f.signature ∧
              f.Separates s.scope d := by
  rcases sample_lowers with
    ⟨p, listing, hParse, hLower, -, hTwo⟩
  have hCompile := compile_of_lower hParse hLower
  rcases storage_separates hCompile with
    ⟨p', s, listing', hRead, hLower', hText, hSeparates⟩
  cases hParse.symm.trans (parse_of_read hRead)
  cases hLower.symm.trans hLower'
  exact ⟨_, hCompile, p, s, listing, hRead, hLower, hText,
    hTwo, hSeparates⟩

end Program

end Bracketry
