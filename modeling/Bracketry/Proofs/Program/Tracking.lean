import Bracketry.Proofs.Program.Reading
import Bracketry.Proofs.Program.Spending
import Bracketry.Proofs.Stmt.Acceptance
import Bracketry.Proofs.Stmt.Tracking

/-
  This file follows the reading of functions and programs:
  the tokens it takes pay for what writing the program
  takes, faults lie on lines that were reached, and no token
  behind the next one is looked at.  Functions are declared
  and defined in the order of their lines.

  Main declarations:
    * `Program.Paid` and `Program.constructTurn`
    * `Program.function_tracks` and `Program.whole_tracks`
-/

namespace Bracketry

open Parse

theorem Field.mem_of_repeated
    {seen : List String}
    {fields : List Field}
    {field : Field}
    (hRepeated : Field.repeated? seen fields = some field) :
    field ∈ fields := by
  induction fields generalizing seen with
  | nil => cases hRepeated
  | cons first rest ih =>
      rw [Field.repeated?] at hRepeated
      split at hRepeated
      · cases hRepeated
        exact List.mem_cons_self
      · exact List.mem_cons_of_mem _ (ih hRepeated)

namespace Parser

variable {P : Prop} {s t u : Parser}
    {lines others : List Nat}

/- The lines on which functions were declared. -/
def headerLines (s : Parser) : List Nat :=
  s.scope.globals.prototypes.map (·.line)

/- Lines lie in order between two states, if they matter. -/
def Spans
    (P : Prop)
    (s : Parser)
    (lines : List Nat)
    (t : Parser) : Prop :=
  P → lines.Pairwise (· ≤ ·) ∧
    ∀ line ∈ lines, s.line ≤ line ∧ line ≤ t.line

namespace Spans

theorem single
    (hLined : s.LinedIf P)
    (hFirst : s.Took t)
    (hSecond : t.Took u) :
    Spans P s [t.line] u := fun hMatter =>
  ⟨List.pairwise_singleton _ _,
    List.forall_mem_singleton.mpr
    ⟨hFirst.line_le (hLined hMatter),
      hSecond.line_le (hLined.onward hFirst hMatter)⟩⟩

theorem sublist
    (hSpans : Spans P s lines t)
    (hSome : others.Sublist lines) :
    Spans P s others t := fun hMatter =>
  ⟨(hSpans hMatter).1.sublist hSome,
    fun line hMem =>
      (hSpans hMatter).2 line (hSome.subset hMem)⟩

theorem nil
    (hLined : s.LinedIf P)
    (hTook : s.Took t) :
    Spans P s [] t :=
  (single hLined .refl hTook).sublist (List.nil_sublist _)

theorem append
    (hFirst : Spans P s lines t)
    (hRest : Spans P t others u)
    (hLined : s.LinedIf P)
    (hTook₁ : s.Took t)
    (hTook₂ : t.Took u) :
    Spans P s (lines ++ others) u := by
  intro hMatter
  rcases hFirst hMatter with ⟨hSorted₁, hWithin₁⟩
  rcases hRest hMatter with ⟨hSorted₂, hWithin₂⟩
  have hLe₁ := hTook₁.line_le (hLined hMatter)
  have hLe₂ := hTook₂.line_le (hLined.onward hTook₁ hMatter)
  constructor
  · refine List.pairwise_append.mpr ⟨hSorted₁, hSorted₂, ?_⟩
    intro line hMem other hOther
    exact Nat.le_trans (hWithin₁ line hMem).2
      (hWithin₂ other hOther).1
  · refine List.forall_mem_append.mpr
      ⟨fun line hMem => ?_, fun line hMem => ?_⟩
    · exact (hWithin₁ line hMem).imp_right
        (Nat.le_trans · hLe₂)
    · exact (hWithin₂ line hMem).imp_left
        (Nat.le_trans hLe₁)

end Spans

end Parser

namespace Program

variable {P : Prop} {s s' : Parser} {name : String}
variable {fields : List Field} {line : Nat}
variable {params : List Identifier}

/- What is left to do when a record has been read. -/
def recordEnd
    (name : String)
    (fields : List Field)
    (line : Nat) : Parse Unit := do
  if let some field := Field.repeated? [] fields then
    throw ⟨.redeclared field.name, field.line⟩
  let members := fields.map fun field =>
    (field.name, field.ty)
  let _ ← Parse.onScope
    (Scope.onGlobals (Globals.addRecord name members line))

theorem recordEnd_tracks
    (hFields : ∀ field ∈ fields, s.Reached P field.line)
    (hLine : s.Reached P line) :
    Tracks P (fun _ t => t.left = s.left)
      (recordEnd name fields line)
      (recordEnd name fields line) s s' := by
  unfold recordEnd
  split
  · rename_i field hRepeated
    exact .throw
      (hFields field (Field.mem_of_repeated hRepeated))
  · refine .bind (.onScope (Scope.onGlobals_refuses
      (Globals.addRecord_refuses _ _ _)) hLine) ?_
    rintro _ t t' - - ⟨scope, -, rfl⟩ -
    exact .pure rfl

theorem record_tracks
    (hNext : s.lookahead ≠ .endOfFile) :
    Tracks P (fun _ t => t.left < s.left) record record
      s s' := by
  refine (Tracks.advance hNext).bind ?_
  intro _ t t' hLined₁ _ hTaken _
  refine .look ?_ fun hAlike => by rw [hAlike.line]
  refine Tracks.identifier.bind ?_
  intro name u u' _ hTook₂ hTaken₂ _
  refine Field.parseList_tracks.bind ?_
  intro fields v v' hLined₃ hTook₃ hFields _
  have hLe₃ := hTook₃.left_le
  refine (Tracks.expect Token.noConfusion).bind ?_
  intro _ w w' _ hTook₄ hTaken₄ _
  -- with or without a semicolon behind it
  have hEnd : ∀ x x' : Parser, w.Took x →
      Tracks P (fun _ y => y.left < s.left)
        (recordEnd name fields t.line)
        (recordEnd name fields t.line) x x' := by
    intro x x' hTook₅
    have hLe₅ := hTook₅.left_le
    have hFields₅ :=
      hFields.later hLined₃ (hTook₄.trans hTook₅)
    have hLine := hLined₁.reached
      (((hTook₂.trans hTook₃).trans hTook₄).trans hTook₅)
    refine (recordEnd_tracks ?_ hLine).weaken ?_
    · intro field hMem
      exact hFields₅.lines field hMem _ List.mem_cons_self
    · intro _ y _ hLeft
      omega
  refine .accept ?_ ?_
  · intro hSemicolon
    refine (Tracks.advance
      (hSemicolon ▸ Token.noConfusion)).bind ?_
    intro _ x x' _ hTook₅ _ _
    exact hEnd x x' hTook₅
  · intro _
    exact hEnd w w' .refl

------------------------------------------------------------
-- Functions
------------------------------------------------------------

theorem parameters_tracks
    (hFields : ∀ field ∈ fields, s.Reached P field.line) :
    Tracks P (fun params t => params.length =
        fields.length ∧ t.left = s.left ∧ t.line = s.line ∧
          t.headerLines = s.headerLines)
      (parameters fields) (parameters fields) s s' := by
  induction fields generalizing s s' with
  | nil => exact .pure ⟨rfl, rfl, rfl, rfl⟩
  | cons field rest ih =>
      rcases List.forall_mem_cons.mp hFields with
        ⟨hField, hRest⟩
      rw [parameters]
      refine .refuse (.mistyped hField) fun _ => ?_
      refine .bind
        (.onScope (Scope.addVariable_refuses _) hField) ?_
      rintro _ t t' - - ⟨scope, hStep, rfl⟩ -
      refine .bind (ih hRest) ?_
      rintro others v v' - -
        ⟨hLength, hLeft, hLine, hHeaders⟩ -
      refine .pure
        ⟨congrArg (· + 1) hLength, hLeft, hLine, ?_⟩
      have hOk := Scope.declare_of_addVariable hStep
      rw [hHeaders, Parser.headerLines,
        Scope.globals_of_declare hOk]
      rfl

theorem prototype_tracks
    {returnType : Ty}
    {hasBody : Bool}
    (hLine : s.Reached P line) :
    Tracks P (fun _ t => t.left = s.left ∧
        t.lookahead = s.lookahead ∧
        ∃ added, t.headerLines = s.headerLines ++ added ∧
          added.Sublist [line])
      (prototype name returnType params hasBody line)
      (prototype name returnType params hasBody line)
        s s' := by
  refine .of_alike fun u hAlike => ?_
  rcases u with
    ⟨tokens, fault?, final, scope, function, loopDepth⟩
  obtain rfl : scope = s.scope := hAlike.scope
  refine .get ?_
  dsimp only
  split
  · refine .require (.throw hLine) fun _ => ?_
    refine .refuse (.throw hLine) fun _ => ?_
    exact .pure ⟨rfl, rfl, [], (List.append_nil _).symm,
      List.nil_sublist _⟩
  · refine .weaken (.onScope (Scope.onGlobals_refuses
      (Globals.addPrototype_refuses _ _ _)) hLine) ?_
    rintro p t - ⟨_, hStep, rfl⟩
    rcases Scope.onGlobals_eq_ok hStep with
      ⟨globals, hOk, rfl⟩
    refine ⟨rfl, rfl, [line], ?_, List.Sublist.refl _⟩
    change Globals.declarePrototype _ _ _ _ = _ at hOk
    rw [Globals.declarePrototype_eq] at hOk
    split at hOk <;> cases hOk
    exact List.map_append

/- A body is paid with the labels around it and its end. -/
theorem body_tracks
    {p : Prototype} :
    Tracks P (fun f t => f.signature.params = params ∧
        f.line = line ∧
          f.body.cost + 1 + 16 * t.left ≤ 16 * s.left ∧
          t.headerLines = s.headerLines)
      (body p params line) (body p params line) s s' := by
  refine (Tracks.modify
    ⟨.of_eq rfl rfl rfl, fun _ => rfl,
      fun _ _ _ => rfl⟩).bind ?_
  rintro _ t t' - - rfl hAs
  refine ((Stmt.braced_tracks fun _ _ _ _ =>
    Stmt.parse_tracks).led
    (Stmt.braced_leads Stmt.parse_leads)).bind ?_
  rintro statements u u' - - ⟨hPaid, sts, start, -, hAll⟩ -
  refine (Tracks.modify
    ⟨.of_eq rfl rfl rfl, fun _ => rfl,
      fun _ _ _ => rfl⟩).bind ?_
  rintro _ v v' - - rfl -
  refine .pure ⟨rfl, rfl, hPaid.paid, ?_⟩
  have hGlobals : u.scope.globals =
    s.scope.globals.implement p.id params :=
    hAll.kept.globals
  change u.scope.globals.prototypes.map _ = _
  rw [hGlobals]
  exact Globals.map_implement (·.line) (fun _ => rfl) _ p.id

/-
  Tokens pay for functions, and those that are declared and
  those that are defined lie in the order of their lines.
-/
structure Paid
    (P : Prop)
    (s : Parser)
    (fs : List FunctionDef)
    (t : Parser) : Prop where
  paid : (fs.map FunctionDef.cost).sum + 16 * t.left ≤
    16 * s.left
  functions : s.Spans P (fs.map (·.line)) t
  headers : ∃ added, t.headerLines = s.headerLines ++
    added ∧ s.Spans P added t

theorem function_tracks :
    Tracks P (fun found t => t.left < s.left ∧
      Paid P s found.toList t) function function s s' := by
  refine .lined fun hLined => ?_
  refine (Ty.parseName_tracks.led
    (Ty.parseName_gives (L := (· ≤ lengthLimit)))).bind ?_
  rintro base t t' - hTook₁ ⟨hTaken, hBase, hContext₁⟩ -
  rw [← hContext₁] at hBase
  refine (Ty.parseDimensions_tracks.led
    (Ty.parseDimensions_gives hBase)).bind ?_
  rintro returnType u u' hLined₂ hTook₂ ⟨-, -, hContext₂⟩ -
  have hLe₂ := hTook₂.left_le
  refine .look ?_ fun hAlike => by rw [hAlike.line]
  refine (Tracks.identifier.led Gives.identifier).bind ?_
  rintro name v v' - hTook₃ ⟨hTaken₃, -, hContext₃⟩ -
  refine (Field.parseList_tracks.led
    Field.parseList_gives).bind ?_
  rintro fields w w' hLined₄ hTook₄
    ⟨hFields, -, hContext₄⟩ -
  have hParams := hFields.paid
  rw [List.map_const', List.sum_replicate_nat] at hParams
  refine ((Tracks.expect Token.noConfusion).led
    (Gives.expect _)).bind ?_
  rintro _ x x' - hTook₅ ⟨hTaken₅, -, hContext₅⟩ -
  have hFields₅ := hFields.later hLined₄ hTook₅
  have hTook := (hTook₃.trans hTook₄).trans hTook₅
  have hLine := hLined₂.reached hTook
  have hHeaders : x.headerLines = s.headerLines := by
    have hSame :=
      hContext₅.trans (hContext₄.trans (hContext₃.trans
      (hContext₂.trans hContext₁)))
    exact congrArg (·.scope.globals.prototypes.map (·.line))
      hSame
  refine (Tracks.modify
    ⟨.of_eq rfl rfl rfl, fun _ => rfl,
      fun _ _ _ => rfl⟩).bind ?_
  rintro _ y y' - hTook₆ rfl -
  refine .bind (parameters_tracks fun field hMem =>
    hFields₅.lines field hMem _ List.mem_cons_self) ?_
  rintro params z z' -
    hTook₇ ⟨hLength, hLeft₇, hSame, hHeaders₇⟩ -
  refine .look ?_ fun hAlike => by rw [hAlike.lookahead]
  refine (prototype_tracks fun hMatter =>
    hSame ▸ hLine hMatter).bind ?_
  rintro p a a' -
    hTook₈ ⟨hLeft₈, hNext₈, added, hHeaders₈, hAdded⟩ -
  have hKept : z.left = x.left := hLeft₇
  rw [hHeaders₇.trans hHeaders] at hHeaders₈
  have hSpans : ∀ b, a.Took b → s.Spans P [u.line] b :=
    fun b hTook₉ =>
      .single hLined (hTook₁.trans hTook₂)
        (hTook.trans (hTook₆.trans
        (hTook₇.trans (hTook₈.trans hTook₉))))
  split
  · refine body_tracks.bind ?_
    rintro f b b' -
      hTook₉ ⟨hNames, hOwn, hBody, hHeaders₉⟩ -
    refine .pure
      ⟨by omega, ?_, ?_, added, hHeaders₉.trans hHeaders₈,
      (hSpans b hTook₉).sublist hAdded⟩
    · rw [Option.toList_some, List.map_singleton,
        List.sum_singleton, FunctionDef.cost,
          hNames, hLength]
      omega
    · rw [Option.toList_some, List.map_singleton, hOwn]
      exact hSpans b hTook₉
  · rename_i hSemicolon
    have hNext : a.lookahead = .symbol .semicolon := by
      simpa [hNext₈] using hSemicolon
    refine ((Tracks.advance (hNext ▸ Token.noConfusion)).led
      Gives.advance).bind ?_
    rintro _ b b' - hTook₉ ⟨hTaken₉, -, hContext₉⟩ -
    refine (Tracks.modify
      ⟨.of_eq rfl rfl rfl, fun _ => rfl,
        fun _ _ _ => rfl⟩).bind ?_
    rintro _ c c' - hTook₁₀ rfl -
    have hAfter := hSpans _ (hTook₉.trans hTook₁₀)
    have hLeft :
        ({ b with scope := b.scope.leave } : Parser).left =
          b.left :=
      rfl
    refine .pure
      ⟨by omega, ?_, hAfter.sublist (List.nil_sublist _),
        added,
      ?_, hAfter.sublist hAdded⟩
    · simp only [Option.toList_none, List.map_nil,
        List.sum_nil]
      omega
    · refine Eq.trans ?_ hHeaders₈
      exact congrArg
        (·.scope.globals.prototypes.map (·.line)) hContext₉

theorem topLevel_tracks :
    Tracks P (fun found t => t.left < s.left ∧
      Paid P s found.toList t) topLevel topLevel s s' := by
  refine .lined fun hLined => ?_
  refine ((Tracks.expect Token.noConfusion).led
    (Gives.expect _)).bind ?_
  rintro _ t t' hLined₁ hTook ⟨hTaken, -, hContext⟩ -
  have hSame : t.headerLines = s.headerLines :=
    congrArg (·.scope.globals.prototypes.map (·.line))
      hContext
  refine .look ?_ fun hAlike => by rw [hAlike.lookahead]
  split
  · rename_i hNext
    refine ((record_tracks (hNext ▸ Token.noConfusion)).led
      record_leads).bind ?_
    rintro _ u u' - hTook₂ ⟨hLeft, -, hHeaders⟩ -
    have hNone :=
      Parser.Spans.nil hLined (hTook.trans hTook₂)
    refine .pure ⟨by omega, ?_, hNone, [], ?_, hNone⟩
    · simp only [Option.toList_none, List.map_nil,
        List.sum_nil]
      omega
    · rw [List.append_nil, ← hSame]
      exact congrArg (List.map (·.line)) hHeaders
  · refine function_tracks.weaken
      fun found u hTook₂ hFound => ?_
    rcases hFound with
      ⟨hLeft, hPaid, hFunctions, added, hHeaders, hAdded⟩
    have hNone := Parser.Spans.nil hLined hTook
    refine ⟨by omega, by omega,
      hNone.append hFunctions hLined hTook hTook₂,
      added, hSame ▸ hHeaders,
        hNone.append hAdded hLined hTook hTook₂⟩

/- A further construct, if there is a bracket. -/
def constructTurn
    (again : Unit → Parse (List FunctionDef))
    (_ : Unit) : Parse (List FunctionDef) := do
  if (← get).lookahead = .symbol .leftBracket then
    let first ← topLevel
    let rest ← again ()
    return first.toList ++ rest
  else
    return []

theorem constructs_repeats :
    Repeats constructTurn fun m _ => constructs m := by
  refine ⟨fun m => rfl, ?_⟩
  intro again _ s hEnd
  have hNone : s.lookahead ≠ .symbol .leftBracket :=
    hEnd ▸ Token.noConfusion
  rw [constructTurn, Step.get_bind, if_neg hNone]
  rfl

theorem constructTurn_guarded :
    Guarded P (fun _ _ => True) (fun _ => Paid P)
      constructTurn constructTurn s s' := by
  intro again again' hAgain _ _
  refine .lined fun hLined => ?_
  refine .look ?_ fun hAlike => by rw [hAlike.lookahead]
  split
  · refine topLevel_tracks.bind ?_
    rintro first t t' -
      hTook₁ ⟨hProgress, hPaid, hFirst, hHeaders⟩ hAs
    refine (hAgain () t t' trivial hProgress
      (by omega)).bind ?_
    rintro rest u u' - hTook₂ ⟨hPaid₂, hRest, hHeaders₂⟩ -
    rcases hHeaders with ⟨added, hHeaders, hAdded⟩
    rcases hHeaders₂ with ⟨others, hHeaders₂, hOthers⟩
    refine .pure ⟨?_, ?_, added ++ others, ?_,
      hAdded.append hOthers hLined hTook₁ hTook₂⟩
    · rw [List.map_append, List.sum_append]
      omega
    · rw [List.map_append]
      exact hFirst.append hRest hLined hTook₁ hTook₂
    · rw [hHeaders₂, hHeaders, List.append_assoc]
  · have hNone := Parser.Spans.nil hLined .refl
    exact .pure
      ⟨by simp, hNone, [], (List.append_nil _).symm, hNone⟩

/-
  The tokens of a program pay for writing it.  Where it is
  rejected, the fault lies on a line that was reached, and
  tokens behind the next one have no part in it.
-/
theorem whole_tracks :
    Tracks P (fun p => Paid P s p.functions) whole whole
      s s' := by
  refine Tracks.settle.bind ?_
  rintro _ t t' - - rfl -
  refine .get ?_
  refine (constructs_repeats.tracks constructs_repeats
    (fun _ _ _ _ => constructTurn_guarded) (Nat.le_refl _)
      (Nat.le_refl _)
    () trivial).bind ?_
  intro functions u u' _ _ hPaid _
  refine .look ?_ fun hAlike => by rw [hAlike.lookahead]
  refine .require (.unexpected _) fun _ => ?_
  refine .look ?_ fun hAlike => by rw [hAlike.scope]
  exact .pure hPaid

end Program

end Bracketry
