import Bracketry.Proofs.Code.Rows
import Bracketry.Proofs.Program.Headers
import Bracketry.Proofs.Program.Locality
import Bracketry.Proofs.Program.Storage

/-
  This file shows that programs are written in what they
  have.

  The variables in the nodes of a function are those it
  holds: their names are words, and so is the name of the
  function, which makes their slots plain texts.

  Main declarations:
    * `Parser.Worded` and `Program.worded_of_read`
    * `FunctionDef.lower_proper`
    * `Program.proper_of_lower`
-/

namespace Bracketry

section

variable {g : Globals}

/- A call has the type of a header, which is known. -/
theorem Expr.known_of_isCall
    {e : Expr}
    (hFormed : g.Formed)
    (hCall : e.IsCall)
    (hNodes : ∀ node ∈ e.nodes, node.Proper g) :
    e.ty.Known g.records := by
  cases e with
  | call callee prototype args params t line =>
      rw [Expr.nodes, List.forall_mem_cons] at hNodes
      rcases hNodes.1.obeys with ⟨-, -, p, hAt, -, -, rfl⟩
      exact (hFormed.returns p
        (List.mem_of_getElem? hAt)).known
  | _ => exact hCall.elim

namespace Stmt

/-
  A statement keeps its rule in a function with a given
  result, and its own nodes are proper.
-/
structure Proper
    (g : Globals)
    (returns : Ty)
    (st : Stmt) : Prop where
  obeys : st.Obeys returns
  nodes : ∀ node ∈ st.nodes, node.Proper g

theorem forall_of_allWithin
    {P : Stmt → Prop}
    {sts : List Stmt}
    (hWithin : ∀ inner ∈ allWithin sts, P inner) :
    ∀ st ∈ sts, ∀ inner ∈ st.within, P inner := by
  induction sts with
  | nil => exact List.forall_mem_nil _
  | cons st rest ih =>
      rw [allWithin, List.forall_mem_append] at hWithin
      exact List.forall_mem_cons.mpr
        ⟨hWithin.1, ih hWithin.2⟩

end Stmt

/- Each statement is written in what the program has. -/
theorem Build.vocabulary_coversAll
    {returns : Ty}
    (hFormed : g.Formed)
    (hReturns : returns.Known g.records) :
    (vocabulary g).CoversAll
      (fun place => ∀ node ∈ place.nodes, node.Proper g)
      (fun e => ∀ node ∈ e.nodes, node.Proper g)
      (fun _ t => t.Known g.records)
      (fun st => ∀ inner ∈ st.within,
        inner.Proper g returns) where
  toCovers := vocabulary_covers hFormed
  sequence := by
    intro head tail hWithin
    rw [Stmt.within, List.forall_mem_cons,
      List.forall_mem_append] at hWithin
    exact ⟨hWithin.2.1,
      Stmt.forall_of_allWithin hWithin.2.2⟩
  ifThen := by
    intro condition body line hWithin
    rw [Stmt.within, List.forall_mem_cons] at hWithin
    exact ⟨hWithin.1.nodes, trivial, hWithin.2⟩
  ifElse := by
    intro condition body other line hWithin
    rw [Stmt.within, List.forall_mem_cons,
      List.forall_mem_append] at hWithin
    exact ⟨hWithin.1.nodes, trivial, hWithin.2⟩
  whileLoop := by
    intro condition body line hWithin
    rw [Stmt.within, List.forall_mem_cons] at hWithin
    exact ⟨hWithin.1.nodes, trivial, hWithin.2⟩
  doWhile := by
    intro body condition line hWithin
    rw [Stmt.within, List.forall_mem_cons] at hWithin
    exact ⟨hWithin.1.nodes, trivial, hWithin.2⟩
  assign := by
    intro target value line hWithin
    rw [Stmt.within, List.forall_mem_singleton] at hWithin
    rcases List.forall_mem_append.mp hWithin.nodes with
      ⟨hTarget, hValue⟩
    have hKnown := Place.known hFormed target hTarget
    exact ⟨hTarget, hValue, hKnown, fun hStored hAddress =>
      ⟨hStored.proper hKnown, hAddress.proper hKnown⟩⟩
  ret := fun _ _ => List.forall_mem_nil _
  retValue := by
    intro value t line hWithin
    rw [Stmt.within, List.forall_mem_singleton] at hWithin
    rcases hWithin.obeys with ⟨rfl, -⟩
    exact ⟨hWithin.nodes, hReturns, fun hReturned =>
      List.forall_mem_singleton.mpr
        (hReturned.proper hReturns)⟩
  evaluate := by
    intro call line hWithin
    rw [Stmt.within, List.forall_mem_singleton] at hWithin
    exact ⟨hWithin.nodes,
      Expr.known_of_isCall hFormed hWithin.obeys
        hWithin.nodes⟩

end

------------------------------------------------------------
-- Variables of Nodes
------------------------------------------------------------

/- Parts of a list lead to parts of another. -/
theorem mem_append_imp
    {α β : Type}
    {a : α}
    {b : β}
    {first second : List α}
    {first' second' : List β}
    (hFirst : a ∈ first → b ∈ first')
    (hSecond : a ∈ second → b ∈ second')
    (hMem : a ∈ first ++ second) :
    b ∈ first' ++ second' :=
  List.mem_append.mpr
    ((List.mem_append.mp hMem).imp hFirst hSecond)

section

variable {x : Identifier}

mutual

theorem Place.mem_variables_of_node :
    ∀ place : Place, .place (.var x) ∈ place.nodes →
      x ∈ place.variables
| .var y, hMem => by
    rw [Place.nodes, List.mem_singleton] at hMem
    cases hMem
    rw [Place.variables]
    exact List.mem_singleton_self x
| .element parent index t, hMem => by
    rw [Place.variables]
    exact mem_append_imp
      (Place.mem_variables_of_node parent)
      (Expr.mem_variables_of_node index)
        (by simpa using hMem)
| .member parent position name t, hMem => by
    rw [Place.variables]
    exact Place.mem_variables_of_node parent
      (by simpa using hMem)

theorem Expr.mem_variables_of_node :
    ∀ e : Expr, .place (.var x) ∈ e.nodes → x ∈ e.variables
| .int value t line, hMem => by simp at hMem
| .float value line, hMem => by simp at hMem
| .boolean value line, hMem => by simp at hMem
| .zero t line, hMem => by simp at hMem
| .array elements t line, hMem => by
    rw [Expr.variables]
    exact Expr.mem_allVariables_of_node elements
      (by simpa using hMem)
| .read place line, hMem => by
    rw [Expr.variables]
    exact Place.mem_variables_of_node place
      (by simpa using hMem)
| .arithmetic op left right t line, hMem => by
    rw [Expr.variables]
    exact mem_append_imp (Expr.mem_variables_of_node left)
      (Expr.mem_variables_of_node right)
        (by simpa using hMem)
| .negate operand t line, hMem => by
    rw [Expr.variables]
    exact Expr.mem_variables_of_node operand
      (by simpa using hMem)
| .call callee prototype args params t line, hMem => by
    rw [Expr.variables]
    exact Expr.mem_allVariables_of_node args
      (by simpa using hMem)
| .compare op left right line, hMem => by
    rw [Expr.variables]
    exact mem_append_imp (Expr.mem_variables_of_node left)
      (Expr.mem_variables_of_node right)
        (by simpa using hMem)
| .and left right line, hMem => by
    rw [Expr.variables]
    exact mem_append_imp (Expr.mem_variables_of_node left)
      (Expr.mem_variables_of_node right)
        (by simpa using hMem)
| .or left right line, hMem => by
    rw [Expr.variables]
    exact mem_append_imp (Expr.mem_variables_of_node left)
      (Expr.mem_variables_of_node right)
        (by simpa using hMem)
| .not operand line, hMem => by
    rw [Expr.variables]
    exact Expr.mem_variables_of_node operand
      (by simpa using hMem)

theorem Expr.mem_allVariables_of_node :
    ∀ es : List Expr, .place (.var x) ∈ Expr.allNodes es →
      x ∈ Expr.allVariables es
| [], hMem => by simp at hMem
| e :: rest, hMem => by
    rw [Expr.allNodes] at hMem
    rw [Expr.allVariables]
    exact mem_append_imp (Expr.mem_variables_of_node e)
      (Expr.mem_allVariables_of_node rest) hMem

end

/- A statement's own nodes have its variables. -/
theorem Stmt.mem_variables_of_own
    (st : Stmt)
    (hMem : .place (.var x) ∈ st.nodes) :
    x ∈ st.variables := by
  cases st with
  | ifThen condition body line =>
      rw [Stmt.variables]
      exact List.mem_append_left _
        (condition.mem_variables_of_node hMem)
  | ifElse condition body other line =>
      rw [Stmt.variables, List.append_assoc]
      exact List.mem_append_left _
        (condition.mem_variables_of_node hMem)
  | whileLoop condition body line =>
      rw [Stmt.variables]
      exact List.mem_append_left _
        (condition.mem_variables_of_node hMem)
  | doWhile body condition line =>
      rw [Stmt.variables]
      exact List.mem_append_right _
        (condition.mem_variables_of_node hMem)
  | assign target value line =>
      rw [Stmt.variables]
      exact mem_append_imp target.mem_variables_of_node
        value.mem_variables_of_node hMem
  | ret value t line =>
      cases value with
      | none => cases hMem
      | some value =>
          rw [Stmt.variables]
          exact value.mem_variables_of_node hMem
  | evaluate call line =>
      rw [Stmt.variables]
      exact call.mem_variables_of_node hMem
  | _ => cases hMem

mutual

theorem Stmt.mem_variables_of_node
    {st : Stmt}
    (hNode : .place (.var x) ∈ st.nodes) :
    ∀ body : Stmt, st ∈ body.within → x ∈ body.variables
| .sequence head tail, hMem => by
    rw [Stmt.within] at hMem
    rcases List.mem_cons.mp hMem with rfl | hInside
    · exact Stmt.mem_variables_of_own _ hNode
    · rw [Stmt.variables]
      exact mem_append_imp
        (Stmt.mem_variables_of_node hNode head)
        (Stmt.mem_allVariables_of_node hNode tail) hInside
| .ifThen condition body line, hMem => by
    rw [Stmt.within] at hMem
    rcases List.mem_cons.mp hMem with rfl | hInside
    · exact Stmt.mem_variables_of_own _ hNode
    · rw [Stmt.variables]
      exact List.mem_append_right _
        (Stmt.mem_variables_of_node hNode body hInside)
| .ifElse condition body other line, hMem => by
    rw [Stmt.within] at hMem
    rcases List.mem_cons.mp hMem with rfl | hInside
    · exact Stmt.mem_variables_of_own _ hNode
    · rw [Stmt.variables, List.append_assoc]
      exact List.mem_append_right _
        (mem_append_imp
          (Stmt.mem_variables_of_node hNode body)
          (Stmt.mem_variables_of_node hNode other) hInside)
| .whileLoop condition body line, hMem => by
    rw [Stmt.within] at hMem
    rcases List.mem_cons.mp hMem with rfl | hInside
    · exact Stmt.mem_variables_of_own _ hNode
    · rw [Stmt.variables]
      exact List.mem_append_right _
        (Stmt.mem_variables_of_node hNode body hInside)
| .doWhile body condition line, hMem => by
    rw [Stmt.within] at hMem
    rcases List.mem_cons.mp hMem with rfl | hInside
    · exact Stmt.mem_variables_of_own _ hNode
    · rw [Stmt.variables]
      exact List.mem_append_left _
        (Stmt.mem_variables_of_node hNode body hInside)
| .empty line, hMem => by
    cases List.mem_singleton.mp hMem
    exact Stmt.mem_variables_of_own _ hNode
| .assign target value line, hMem => by
    cases List.mem_singleton.mp hMem
    exact Stmt.mem_variables_of_own _ hNode
| .ret value t line, hMem => by
    cases List.mem_singleton.mp hMem
    exact Stmt.mem_variables_of_own _ hNode
| .breakLoop line, hMem => by
    cases List.mem_singleton.mp hMem
    exact Stmt.mem_variables_of_own _ hNode
| .evaluate call line, hMem => by
    cases List.mem_singleton.mp hMem
    exact Stmt.mem_variables_of_own _ hNode

theorem Stmt.mem_allVariables_of_node
    {st : Stmt}
    (hNode : .place (.var x) ∈ st.nodes) :
    ∀ sts : List Stmt, st ∈ Stmt.allWithin sts →
      x ∈ Stmt.allVariables sts
| [], hMem => by
    rw [Stmt.allWithin] at hMem
    cases hMem
| first :: rest, hMem => by
    rw [Stmt.allWithin] at hMem
    rw [Stmt.allVariables]
    exact mem_append_imp
      (Stmt.mem_variables_of_node hNode first)
      (Stmt.mem_allVariables_of_node hNode rest) hMem

end

end

namespace FunctionDef

open Build (vocabulary)

variable {g : Globals} {f : FunctionDef} {b b' : Builder}

/- A parameter whose slot and whose argument are proper. -/
structure Arrives
    (g : Globals)
    (x : Identifier) : Prop where
  slot : x.Proper g
  incoming : x.incoming.Proper g

/- All instructions of a function are proper. -/
theorem lower_proper
    {d : Definition}
    (hFormed : g.Formed)
    (hReturns : f.signature.returnType.Known g.records)
    (hParams : ∀ x ∈ f.signature.params, Arrives g x)
    (hBody :
      ∀ st ∈ f.body.within,
        st.Proper g f.signature.returnType)
    (hOk : f.lower b = .ok d b') :
    ∀ i, Line.instruction i ∈ d.lines → i.Proper g := by
  have hInitial :
      (Value.initial f.signature.returnType).Proper g := by
    unfold Value.initial
    split <;> exact .of_ty rfl rfl hReturns
  have hArguments : (vocabulary g).Keeps ()
      (lowerParameters f.signature.params) :=
    lowerParameters_follows
      (fun x hMem _ => (hParams x hMem).slot.slot)
      fun x hMem _ _ _ hAddress =>
        ⟨(hParams x hMem).incoming,
        hAddress.proper (hParams x hMem).slot.known⟩
  have hEnd : ∀ k, (vocabulary g).Keeps k
      (lowerEnd f.signature.returnType) :=
    lowerEnd_follows (fun _ _ => List.forall_mem_nil _)
      fun _ _ => List.forall_mem_singleton.mpr hInitial
  have hWrites :=
    (vocabulary g).bind hArguments fun _ _ _ _ =>
      lowerBody_follows (Stmt.lower_within
        (Build.vocabulary_coversAll hFormed hReturns) f.body
          hBody) hEnd ()
        (.inl trivial)
  rcases lower_eq_ok hOk with ⟨hWritten, rfl⟩
  rcases (hWrites _ _ _ hWritten).1.lines_eq with
    ⟨code, hLines, hCode⟩
  intro i hMem
  have hIn : Line.instruction i ∈ code := by
    change Line.instruction i ∈ b'.lines.toList at hMem
    rw [hLines] at hMem
    simpa [Builder.cleared] using hMem
  rcases hCode i hIn with hProper | ⟨l, rfl⟩
  · exact hProper
  · trivial

/- Functions are written in order. -/
theorem signatures_of_lowerAll
    {fs : List FunctionDef}
    {ds : List Definition}
    (hOk : lowerAll fs b = .ok ds b') :
    ds.map (·.signature) = fs.map (·.signature) := by
  induction fs generalizing b ds with
  | nil =>
      rcases Step.pure_eq_ok.mp hOk with ⟨rfl, -⟩
      rfl
  | cons f rest ih =>
      rcases lowerAll_cons hOk with
        ⟨d, b₁, others, hFirst, hRest, rfl⟩
      rw [List.map_cons, List.map_cons, ih hRest,
        (emits_of_lower hFirst).2]

end FunctionDef

/- Only letters, digits and underscores. -/
def Text.IsWord (text : String) : Prop :=
  ∀ c ∈ text.toList, isWordPart c = true

/- Names are words, and functions were declared in order. -/
structure Parser.Worded (s : Parser) : Prop where
  scope : s.scope.Named Text.IsWord
  sorted :
    (s.scope.globals.prototypes.map (·.line)).Pairwise
      (· ≤ ·)

/-
  Where a program has been read all names are words, as
  those of the tokens are, and its functions stand in the
  order of their lines.
-/
theorem Program.worded_of_read
    {source : String}
    {p : Program}
    {s : Parser}
    (hRead : Program.read source = .ok p s) :
    s.Worded ∧ p.globals = s.scope.globals ∧
      (p.functions.map (·.line)).Pairwise (· ≤ ·) := by
  have hReads := TokenStream.reads_ofText source
  have hStart : (Parser.ofStream (.ofText source)).Named
      Text.IsWord := by
    refine ⟨fun lexeme hMem name hToken => ?_, ?_, ?_, ?_⟩
    · have hProper := hReads.proper lexeme hMem
      rw [hToken] at hProper
      exact hProper
    · rintro x ⟨k, frame, -, ⟨⟩, -⟩
    · rintro _ ⟨⟩
    · rintro _ ⟨⟩
  rcases whole_leads.reaches _ p s hStart rfl hRead with
    ⟨⟨-, hGlobals⟩, hNamed, -⟩
  have hTracks : Parse.Tracks True _ whole whole
      (.ofStream (.ofText source)) s := whole_tracks
  have hPaid :=
    (hTracks.ok (fun _ => Parser.lined_ofStream hReads) p s
      hRead).2.1
  rcases hPaid.headers with ⟨added, hHeaders, hAdded⟩
  refine ⟨⟨hNamed.scope, ?_⟩, hGlobals,
    (hPaid.functions trivial).1⟩
  change s.headerLines.Pairwise _
  rw [hHeaders]
  exact (hAdded trivial).1

theorem Text.IsWord.plain
    {text : String}
    (hWord : Text.IsWord text) :
    Text.Plain text := by
  intro c hMem hSpecial
  have hPart := hWord c hMem
  simp only [List.mem_cons, List.not_mem_nil, or_false]
    at hSpecial
  rcases hSpecial with rfl | rfl | rfl <;> cases hPart

/- The slots of a function's variables are plain. -/
theorem Identifier.BoundIn.plain
    {x : Identifier}
    {function : String}
    (hBound : x.BoundIn function)
    (hName : Text.IsWord x.name)
    (hFunction : Text.IsWord function) :
    Text.Plain x.storage := by
  unfold Identifier.storage
  rcases hBound with hArgument | ⟨k, hBlock⟩
  · rw [hArgument]
    exact .append (.append (.of_all rfl) hName.plain)
      (.of_all rfl)
  · rw [hBlock]
    simp only [Text.Lacks.append_iff, and_assoc]
    exact ⟨.of_all rfl, hName.plain, .of_all rfl,
      hFunction.plain, .of_all rfl, Text.plain_nat k⟩

namespace Program

section

variable {source : String} {p : Program} {s : Parser}
variable (hRead : Program.read source = .ok p s)
variable {listing : Listing}
include hRead

variable {f : FunctionDef}

/- The name of a function is a word. -/
theorem isWord_function
    (hMem : f ∈ p.functions) :
    Text.IsWord f.signature.name.name := by
  rcases worded_of_read hRead with ⟨hWorded, hGlobals, -⟩
  rcases header_of_mem (parse_of_read hRead) hMem with
    ⟨header, hHeader, -, hName, -⟩
  rw [hGlobals] at hHeader
  rw [← hName]
  exact hWorded.scope.headers header hHeader

/- Parameters and variables are proper. -/
theorem identifiers_proper
    (hMem : f ∈ p.functions) :
    f.signature.returnType.Known p.globals.records ∧
      ∀ x ∈ f.signature.params ++ f.body.variables,
        Text.IsWord x.name ∧ x.Proper p.globals := by
  rcases worded_of_read hRead with ⟨hWorded, -⟩
  have hFunction := isWord_function hRead hMem
  rcases read_of_read hRead with ⟨hProgram, hGlobals⟩
  rcases hProgram.begunIn rfl .empty f hMem with
    ⟨base, c₁, sts, start, c₂, hBegun, hBody, hAll, hKept⟩
  have hLarger : c₁.scope.globals.records ⊆
      p.globals.records := by
    rw [hGlobals]
    exact hBegun.kept.records
  refine ⟨hBegun.returns.known.mono hLarger,
    fun x hVariable => ?_⟩
  have hHolds := hBegun.holds hBody hAll x hVariable
  have hName : Text.IsWord x.name := by
    rcases hHolds with ⟨k, frame, -, hFrame, hDeclared⟩
    rcases hKept k frame hFrame with
      ⟨frame', hFrame', hStill⟩
    exact hWorded.scope.vars x
      ⟨k, frame', Nat.zero_le k, hFrame',
        hStill x hDeclared⟩
  have hBound :=
    (hAll.inside hBegun.inside).scope.boundIn hHolds
  have hMeasured :=
    hAll.measured (fun _ _ => trivial) hBegun.unmeasured
      fun _ _ _ _ => trivial
  have hKnown := (hMeasured.held x hHolds).1.known
  rw [hAll.kept.globals] at hKnown
  exact ⟨hName, hBound.plain hName hFunction,
    hKnown.mono hLarger⟩

theorem arrives_of_mem
    (hMem : f ∈ p.functions) :
    ∀ x ∈ f.signature.params,
      FunctionDef.Arrives p.globals x := by
  intro x hParam
  rcases (identifiers_proper hRead hMem).2 x
    (List.mem_append_left _ hParam) with ⟨hName, hProper⟩
  refine ⟨hProper, .named ?_ hProper.known⟩
  exact .append (.append (.of_all rfl) hName.plain)
    (.of_all rfl)

theorem body_proper
    (hMem : f ∈ p.functions) :
    ∀ st ∈ f.body.within,
      st.Proper p.globals f.signature.returnType := by
  intro st hInside
  have hIdentifiers := (identifiers_proper hRead hMem).2
  rcases read_of_read hRead with ⟨hProgram, hGlobals⟩
  have hSound := (hProgram.obeys .empty).2 f hMem st hInside
  change st.Sound s.scope.globals _ at hSound
  rw [← hGlobals] at hSound
  refine ⟨hSound.obeys,
    fun node hNode => ⟨hSound.nodes node hNode, ?_⟩⟩
  rintro x rfl
  have hVariable :=
    Stmt.mem_variables_of_node hNode f.body hInside
  exact (hIdentifiers x
    (List.mem_append_right _ hVariable)).2

omit hRead in
theorem records_of_lower
    (hLower : p.lower = .ok listing) :
    listing.records = p.globals.records := by
  unfold Program.lower at hLower
  split at hLower
  · cases hLower
  · split at hLower
    · cases hLower
      rfl
    · cases hLower

/- A program is written in what it has. -/
theorem proper_of_lower
    (hLower : p.lower = .ok listing) :
    listing.Proper p.globals := by
  rcases worded_of_read hRead with ⟨hWorded, hGlobals, -⟩
  rcases read_of_read hRead with ⟨hProgram, -⟩
  have hParse := parse_of_read hRead
  have hListed := listed_of_parse hParse
  have hFormed : p.globals.Formed := by
    rw [hGlobals]
    exact (hProgram.globals .empty).2
  have hHeaders :
      ∀ q ∈ p.globals.prototypes,
        Text.Unbroken q.name.storage := by
    intro q hMem
    have hWord : Text.IsWord q.name.name := by
      rw [hGlobals] at hMem
      exact hWorded.scope.headers q hMem
    unfold Identifier.storage
    rw [hListed.bound q hMem]
    exact .append (.of_all rfl) hWord.plain.unbroken
  rcases lower_eq_ok hLower with ⟨b, hAll⟩
  have hWritten := FunctionDef.lower_of_mem hAll rfl
  refine
    { records := records_of_lower hLower
      names := ?_
      members := fun r hMem m hMember =>
        (hFormed.members r hMem m hMember).known
      headers := hHeaders
      signatures := ?_
      instructions := ?_ }
  · rw [hGlobals]
    exact fun r hMem => (hWorded.scope.records r hMem).plain
  · intro d hMem
    rcases hWritten d hMem with ⟨f, hF, b₁, b₂, -, hLowered⟩
    rcases header_of_mem hParse hF with
      ⟨header, hHeader, -, hName, -⟩
    rw [(FunctionDef.emits_of_lower hLowered).2]
    refine ⟨?_, (identifiers_proper hRead hF).1,
      fun x hParam => ?_⟩
    · rw [← hName]
      exact hHeaders header hHeader
    · exact (arrives_of_mem hRead hF x hParam).incoming
  · intro d hMem
    rcases hWritten d hMem with ⟨f, hF, b₁, b₂, -, hLowered⟩
    exact FunctionDef.lower_proper hFormed
      (identifiers_proper hRead hF).1
      (arrives_of_mem hRead hF) (body_proper hRead hF)
        hLowered

end

end Program

end Bracketry
