import Bracketry.Proofs.Expr.Elements
import Bracketry.Proofs.Stmt.Reading

/-
  This file shows how the lengths of a declared array are
  put together from bracket groups behind its type and
  behind its name.

  Groups are read in order, and those behind the name go in
  at the innermost level of the type built before.  So the
  type depends on the groups in a row, and not on where the
  name stands among them.

  Main declarations:
    * `Ty.brackets` and `Field.Ahead`
    * `Field.header_outcome`
    * `Field.dimensions_concatenate`
-/

namespace Bracketry

namespace Parse

variable {α β : Type} {f : α → Parse β}

/- What a step of reading leads to. -/
def outcome
    (x : Parse α)
    (s : Parser) : Option (α × Parser) :=
  match x s with
  | .ok a s' => some (a, s')
  | .error _ _ => none

variable {x : Parse α} {s s' : Parser}

theorem outcome_of_ok
    {a : α}
    (hOk : x s = .ok a s') :
    x.outcome s = (some a).map (·, s') := by
  rw [outcome, hOk]
  rfl

theorem outcome_bind :
    (x >>= f).outcome s =
      (x.outcome s).bind fun p => (f p.1).outcome p.2 := by
  unfold outcome
  cases hRun : x s with
  | ok a s₁ =>
      rw [Step.bind_of_ok hRun]
      rfl
  | error fault s₁ =>
      rw [Step.bind_of_error hRun]
      rfl

/- The second step starts where the first ends. -/
theorem outcome_bind_of_map
    {result : Option α}
    (hFirst : x.outcome s = result.map (·, s')) :
    (x >>= f).outcome s = result.bind fun a =>
      (f a).outcome s' := by
  rw [outcome_bind, hFirst]
  cases result <;> rfl

end Parse

open Parse

------------------------------------------------------------
-- Bracket Groups
------------------------------------------------------------

namespace Ty

variable {ns : List Nat}

/- Bracket groups, each of them empty or with a length. -/
def brackets (dims : List (Option Nat)) : List Token :=
  dims.flatMap fun d =>
    .symbol .leftBracket :: (d.map Token.integer).toList ++
      [.symbol .rightBracket]

/- The length that a group stands for, if it may stand. -/
def length? : Option Nat → Option Nat
| none => some 0
| some n => if LengthOk n then some n else none

/- The lengths of groups in a row. -/
abbrev lengths? (dims : List (Option Nat)) :
    Option (List Nat) :=
  dims.mapM length?

variable {s s' : Parser} {dims : List (Option Nat)} {t : Ty}

theorem ofShape_append
    (ms ns : List Nat)
    (t : Ty) :
    ofShape (ms ++ ns) t = ofShape ms (ofShape ns t) :=
  List.foldr_append

theorem ofShape_ne_void
    (hSolid : t ≠ .void)
    (ns : List Nat) :
    ofShape ns t ≠ .void := by
  cases ns with
  | nil => exact hSolid
  | cons n ns => exact Ty.noConfusion

theorem lengths?_append
    (outer inner : List (Option Nat)) :
    lengths? (outer ++ inner) =
      (lengths? outer).bind fun ms =>
        (lengths? inner).map (ms ++ ·) := by
  unfold lengths?
  rw [List.mapM_append]
  cases outer.mapM length? with
  | none => rfl
  | some ms => cases inner.mapM length? <;> rfl

theorem lengths?_eq_some_iff :
    lengths? dims = some ns ↔
      (∀ n, some n ∈ dims → LengthOk n) ∧
        dims.map (·.getD 0) = ns := by
  induction dims generalizing ns with
  | nil => simp
  | cons d dims ih =>
      cases d with
      | none =>
          simp [length?, Option.bind_eq_some_iff, ih,
            and_assoc]
      | some n =>
          by_cases hOk : LengthOk n
          · simp [length?, hOk, Option.bind_eq_some_iff, ih,
              and_assoc]
          · simp [length?, hOk]

theorem lengths?_eq_none_iff :
    lengths? dims = none ↔
      ∃ n, some n ∈ dims ∧ (n = 0 ∨ lengthLimit < n) := by
  have hBad : ∀ n, n = 0 ∨ lengthLimit < n ↔
      ¬ LengthOk n := by
    intro n
    unfold LengthOk
    omega
  simp [Option.eq_none_iff_forall_ne_some,
    lengths?_eq_some_iff, hBad]

/- A type is complete if no group is empty. -/
theorem isFullySpecified_ofShape
    (hScalar : ¬ t.IsArray)
    (hLengths : lengths? dims = some ns) :
    (ofShape ns t).IsFullySpecified ↔ none ∉ dims := by
  rcases lengths?_eq_some_iff.mp hLengths with ⟨hOk, rfl⟩
  rw [isFullySpecified_iff, lengths_ofShape hScalar,
    List.forall_mem_map]
  constructor
  · intro hPositive hEmpty
    exact Nat.lt_irrefl 0 (hPositive none hEmpty)
  · intro hFull d hMem
    cases d with
    | none => exact absurd hMem hFull
    | some n => exact (hOk n hMem).1

theorem parseLength_outcome
    {d : Option Nat}
    {tokens : List Token}
    (hAhead :
      s.Ahead ((d.map Token.integer).toList ++
        .symbol .rightBracket :: tokens) s') :
    ∃ s₁, s₁.Ahead (.symbol .rightBracket :: tokens) s' ∧
      parseLength.outcome s = (length? d).map (·, s₁) := by
  cases d with
  | none =>
      refine ⟨s, hAhead, outcome_of_ok ?_⟩
      rw [parseLength, Step.get_bind, hAhead.lookahead_eq]
      rfl
  | some n =>
      rcases hAhead.advance with ⟨s₁, hAdvance, -, hMore⟩
      refine ⟨s₁, hMore, ?_⟩
      rw [outcome, parseLength, Step.get_bind,
        hAhead.lookahead_eq, length?]
      dsimp only
      by_cases hGreat : lengthLimit < n
      · rw [if_pos hGreat, if_neg fun hOk =>
          Nat.not_le.mpr hGreat hOk.2]
        rfl
      · by_cases hZero : n = 0
        · rw [if_neg hGreat, if_pos hZero,
            if_neg fun hOk => Nat.ne_of_gt hOk.1 hZero]
          rfl
        · rw [if_neg hGreat, if_neg hZero,
            Step.bind_of_ok hAdvance,
            if_pos ⟨Nat.pos_of_ne_zero hZero,
              Nat.not_lt.mp hGreat⟩]
          rfl

/- Groups are read up to a token that does not open one. -/
theorem parseLengths_outcome
    {turns : Nat}
    (hAhead : s.Ahead (brackets dims) s')
    (hEnd : s'.lookahead ≠ .symbol .leftBracket)
    (hTurns : (brackets dims).length ≤ turns) :
    (parseLengths turns).outcome s =
      (lengths? dims).map (·, s') := by
  induction dims generalizing s turns with
  | nil =>
      cases hAhead.eq_of_nil
      cases turns with
      | zero => rfl
      | succ turns =>
          rw [parseLengths, outcome_bind_of_map
            (outcome_of_ok (accept_of_ne hEnd))]
          rfl
  | cons d dims ih =>
      rw [brackets, List.flatMap_cons, List.cons_append,
        List.cons_append, List.append_assoc]
          at hAhead hTurns
      cases turns with
      | zero => cases hTurns
      | succ turns =>
          rcases hAhead.accept with ⟨s₁, hAccept, hGroup⟩
          rcases parseLength_outcome hGroup with
            ⟨s₂, hClosing, hLength⟩
          rcases hClosing.expect with ⟨s₃, hClose, hRest⟩
          have hLess : (brackets dims).length ≤ turns := by
            simp only [List.length_cons, List.length_append]
              at hTurns
            rw [brackets]
            omega
          have hOthers := ih hRest hLess
          rw [parseLengths, outcome_bind_of_map
            (outcome_of_ok hAccept)]
          change (parseLength >>= _).outcome s₁ = _
          rw [outcome_bind_of_map hLength, lengths?,
            List.mapM_cons]
          cases length? d with
          | none => rfl
          | some n =>
              change (Parse.expect _ >>= _).outcome s₂ = _
              rw [outcome_bind_of_map
                (outcome_of_ok hClose)]
              change (parseLengths turns >>= _).outcome s₃ =
                _
              rw [outcome_bind_of_map hOthers, lengths?]
              cases dims.mapM length? <;> rfl

theorem parseDimensions_outcome
    (hSolid : t ≠ .void)
    (hAhead : s.Ahead (brackets dims) s')
    (hEnd : s'.lookahead ≠ .symbol .leftBracket) :
    (parseDimensions t).outcome s =
      ((lengths? dims).map (ofShape · t)).map (·, s') := by
  have hTurns : (brackets dims).length ≤ s.left := by
    rw [hAhead.left_eq]
    exact Nat.le_add_right _ _
  change (parseLengths s.left >>= _).outcome s = _
  rw [outcome_bind_of_map
    (parseLengths_outcome hAhead hEnd hTurns)]
  cases lengths? dims with
  | none => rfl
  | some ns =>
      change Parse.outcome (if _ then _ else _) s' = _
      rw [if_neg fun hVoid => hSolid hVoid.2]
      rfl

/- Further groups go in at the innermost level. -/
theorem parseInner_outcome
    {result : Option Ty}
    (hScalar : ¬ t.IsArray)
    (ms : List Nat)
    (hInner : (parseDimensions t).outcome s =
      result.map (·, s')) :
    (parseInner (ofShape ms t)).outcome s =
      (result.map (ofShape ms)).map (·, s') := by
  induction ms with
  | nil =>
      have hSame : parseInner t = parseDimensions t := by
        cases t with
        | array n u => exact absurd trivial hScalar
        | _ => rfl
      rw [show ofShape [] t = t from rfl, hSame, hInner]
      cases result <;> rfl
  | cons m ms ih =>
      change (parseInner (ofShape ms t) >>= _).outcome s = _
      rw [outcome_bind_of_map ih]
      cases result <;> rfl

end Ty

------------------------------------------------------------
-- Declared Names
------------------------------------------------------------

namespace Field

/-
  A name is declared ahead: by a type with bracket groups,
  and by itself with others, behind which no more groups
  stand.
-/
def Ahead
    (t : Ty)
    (outer : List (Option Nat))
    (name : String)
    (inner : List (Option Nat))
    (s s' : Parser) : Prop :=
  ∃ s₁, Ty.parseName s = .ok t s₁ ∧
    s₁.Ahead (Ty.brackets outer ++
      .identifier name :: Ty.brackets inner) s' ∧
    s'.lookahead ≠ .symbol .leftBracket

variable {t : Ty} {outer inner : List (Option Nat)}
variable {name : String} {s s' : Parser}

theorem Ahead.not_isArray
    (hAhead : Ahead t outer name inner s s') :
    ¬ t.IsArray := by
  rcases hAhead with ⟨s₁, hName, -, -⟩
  have hFormed : t.Formed s.scope.globals fun _ => False :=
    (Ty.parseName_gives.of_ok s t s₁ rfl hName).1
  cases hFormed with
  | array hNone _ _ => exact hNone.elim
  | _ => exact id

theorem header_outcome
    (hSolid : t ≠ .void)
    (hAhead : Ahead t outer name inner s s') :
    ∃ line, header.outcome s =
      (Ty.lengths? (outer ++ inner)).map fun ns =>
        (⟨name, Ty.ofShape ns t, line⟩, s') := by
  have hScalar := hAhead.not_isArray
  rcases hAhead with ⟨s₁, hName, hAhead, hEnd⟩
  rcases hAhead.append with ⟨s₂, hOuter, hAhead⟩
  rcases hAhead.advance with ⟨s₃, hAdvance, -, hInner⟩
  have hIdentifier : Parse.identifier s₂ = .ok name s₃ := by
    rw [Parse.identifier, Step.get_bind,
      hAhead.lookahead_eq]
    exact Step.bind_of_ok hAdvance
  have hFirst :=
      Ty.parseDimensions_outcome hSolid hOuter (by
    rw [hAhead.lookahead_eq]
    exact Token.noConfusion)
  have hSecond :=
    Ty.parseDimensions_outcome hSolid hInner hEnd
  refine ⟨s₂.line, ?_⟩
  rw [header, outcome_bind_of_map (outcome_of_ok hName)]
  change (Ty.parseDimensions t >>= _).outcome s₁ = _
  rw [outcome_bind_of_map hFirst, Ty.lengths?_append]
  cases Ty.lengths? outer with
  | none => rfl
  | some ms =>
      change (Parse.identifier >>= _).outcome s₂ = _
      rw [outcome_bind_of_map (outcome_of_ok hIdentifier)]
      change (Ty.parseInner (Ty.ofShape ms t) >>=
        _).outcome s₃ = _
      rw [outcome_bind_of_map
        (Ty.parseInner_outcome hScalar ms hSecond)]
      cases Ty.lengths? inner with
      | none => rfl
      | some ns =>
          simp [Ty.ofShape_append]
          rfl

/- A reader of headers that refuses some types. -/
def Checks
    (allowed : Ty → Bool)
    (reader : Parse Field) : Prop :=
  ∀ s, reader.outcome s =
    (header.outcome s).filter fun p => allowed p.1.ty

theorem parse_checks :
    Checks (·.IsFullySpecified) parse := by
  intro s
  rw [parse_eq, outcome_bind]
  cases header.outcome s with
  | none => rfl
  | some p =>
      change Parse.outcome (if _ then _ else _) p.2 = _
      by_cases hSpecified : p.1.ty.IsFullySpecified
      · rw [if_pos hSpecified, Option.filter_some,
          if_pos (by simpa)]
        rfl
      · rw [if_neg hSpecified, Option.filter_some,
          if_neg (by simpa)]
        rfl

end Field

theorem Stmt.header_checks :
    Field.Checks (· ≠ .void) header := by
  intro s
  rw [header, outcome_bind]
  cases Field.header.outcome s with
  | none => rfl
  | some p =>
      change Parse.outcome (if _ then _ else _) p.2 = _
      by_cases hVoid : p.1.ty = .void
      · rw [if_pos hVoid, Option.filter_some,
          if_neg (by simpa)]
        rfl
      · rw [if_neg hVoid, Option.filter_some,
          if_pos (by simpa)]
        rfl

namespace Field

variable {t : Ty} {outer inner : List (Option Nat)}
variable {name : String} {s s' : Parser}

namespace Checks

variable {allowed : Ty → Bool} {reader : Parse Field}

theorem outcome_eq
    (hChecks : Checks allowed reader)
    (hSolid : t ≠ .void)
    (hAhead : Ahead t outer name inner s s') :
    ∃ line, reader.outcome s =
      ((Ty.lengths? (outer ++ inner)).filter fun ns =>
        allowed (Ty.ofShape ns t)).map fun ns =>
          (⟨name, Ty.ofShape ns t, line⟩, s') := by
  rcases header_outcome hSolid hAhead with ⟨line, hHeader⟩
  refine ⟨line, ?_⟩
  rw [hChecks, hHeader, Option.filter_map]
  rfl

theorem shape_eq
    (hChecks : Checks allowed reader)
    (hSolid : t ≠ .void)
    (hAhead : Ahead t outer name inner s s')
    {field : Field}
    {s₁ : Parser}
    (hSome : reader.outcome s = some (field, s₁)) :
    field.name = name ∧
      field.ty.lengths = (outer ++ inner).map (·.getD 0) ∧
      field.ty.innermost = t ∧ s₁ = s' := by
  have hScalar := hAhead.not_isArray
  rcases hChecks.outcome_eq hSolid hAhead with
    ⟨line, hOutcome⟩
  rcases Option.map_eq_some_iff.mp
    (hOutcome.symm.trans hSome) with
    ⟨ns, hNs, hField⟩
  cases hField
  rcases Ty.lengths?_eq_some_iff.mp
    (Option.filter_eq_some_iff.mp hNs).1 with ⟨-, rfl⟩
  exact ⟨rfl, Ty.lengths_ofShape hScalar _,
    Ty.innermost_ofShape hScalar _, rfl⟩

theorem refused_iff
    (unallowed : Prop)
    (hChecks : Checks allowed reader)
    (hSolid : t ≠ .void)
    (hAhead : Ahead t outer name inner s s')
    (hAllowed : ∀ ns,
      Ty.lengths? (outer ++ inner) = some ns →
      (allowed (Ty.ofShape ns t) ↔ ¬ unallowed)) :
    reader.outcome s = none ↔
      unallowed ∨
        ∃ n, some n ∈ outer ++ inner ∧
          (n = 0 ∨ lengthLimit < n) := by
  rcases hChecks.outcome_eq hSolid hAhead with
    ⟨line, hOutcome⟩
  rw [hOutcome, Option.map_eq_none_iff,
    Option.filter_eq_none_iff, ← Ty.lengths?_eq_none_iff]
  cases hLengths : Ty.lengths? (outer ++ inner) with
  | none => simp
  | some ns =>
      simp [-Bool.not_eq_true, hAllowed ns hLengths]

/- The line and the place of the name do not matter. -/
theorem ty_eq
    (hChecks : Checks allowed reader)
    (hSolid : t ≠ .void)
    (hAhead : Ahead t outer name inner s s') :
    (reader.outcome s).map (·.1.ty) =
      ((Ty.lengths? (outer ++ inner)).map
        (Ty.ofShape · t)).filter allowed := by
  rcases hChecks.outcome_eq hSolid hAhead with
    ⟨line, hOutcome⟩
  rw [hOutcome, Option.map_map, Option.filter_map]
  rfl

end Checks

/-
  In front of its initializer a declaration reads a type and
  a name, like a field.  The lengths of the type, from the
  outermost inward, are those in the groups behind the type
  and then those behind the name, with zero for an empty
  group.  It is refused exactly for a length that is zero or
  too great, and a field also for an empty group.  So the
  same groups make the same type wherever the name stands
  among them.
-/
theorem dimensions_concatenate
    (hSolid : t ≠ .void)
    (hAhead : Ahead t outer name inner s s') :
    Stmt.declaration = Stmt.header >>= Stmt.declareAs ∧
    (∀ reader ∈ [Stmt.header, parse], ∀ field s₁,
      reader.outcome s = some (field, s₁) →
        field.name = name ∧
          field.ty.lengths =
            (outer ++ inner).map (·.getD 0) ∧
          field.ty.innermost = t ∧ s₁ = s') ∧
    (Stmt.header.outcome s = none ↔
      ∃ n, some n ∈ outer ++ inner ∧
        (n = 0 ∨ lengthLimit < n)) ∧
    (parse.outcome s = none ↔
      none ∈ outer ++ inner ∨
        ∃ n, some n ∈ outer ++ inner ∧
          (n = 0 ∨ lengthLimit < n)) ∧
    ∀ outer' inner' name' r r',
      Ahead t outer' name' inner' r r' →
      outer' ++ inner' = outer ++ inner →
        ∀ reader ∈ [Stmt.header, parse],
          (reader.outcome r).map (·.1.ty) =
            (reader.outcome s).map (·.1.ty) := by
  have hEach : ∀ reader ∈ [Stmt.header, parse],
      ∃ allowed, Checks allowed reader := by
    rintro reader (_ | ⟨_, _ | ⟨_, ⟨⟩⟩⟩)
    · exact ⟨_, Stmt.header_checks⟩
    · exact ⟨_, parse_checks⟩
  refine ⟨Stmt.declaration_eq, ?_, ?_, ?_, ?_⟩
  · intro reader hReader field s₁ hSome
    rcases hEach reader hReader with ⟨allowed, hChecks⟩
    exact hChecks.shape_eq hSolid hAhead hSome
  · rw [Stmt.header_checks.refused_iff False hSolid hAhead,
      false_or]
    intro ns _
    simpa using Ty.ofShape_ne_void hSolid ns
  · refine parse_checks.refused_iff _ hSolid hAhead ?_
    intro ns hLengths
    rw [decide_eq_true_iff]
    exact Ty.isFullySpecified_ofShape hAhead.not_isArray
      hLengths
  · intro outer' inner' name' r r' hAhead' hSame
      reader hReader
    rcases hEach reader hReader with ⟨allowed, hChecks⟩
    rw [hChecks.ty_eq hSolid hAhead', hSame,
      hChecks.ty_eq hSolid hAhead]

/- Two rows of three, with the name between. -/
theorem rows_declared :
    let ahead := fun outer inner =>
      Expr.inFrontOf (.typeName .int :: Ty.brackets outer ++
        .identifier "x" :: Ty.brackets inner)
    (∃ field,
      Stmt.header.outcome (ahead [some 2] [some 3]) =
          some (field, Expr.inFrontOf []) ∧
        field.ty.lengths = [2, 3] ∧
          field.ty.innermost = .int ∧
        (Stmt.header.outcome
          (ahead [] [some 2, some 3])).map (·.1.ty) =
          some field.ty) ∧
      parse.outcome (ahead [none] [some 3]) = none := by
  intro ahead
  have hAhead : ∀ outer inner, Ahead .int outer "x" inner
      (ahead outer inner) (Expr.inFrontOf []) := by
    intro outer inner
    rcases (Expr.ahead_inFrontOf _).advance with
      ⟨s₁, hAdvance, -, hMore⟩
    exact ⟨s₁, Step.bind_of_ok hAdvance, hMore, by decide⟩
  rcases dimensions_concatenate (by decide)
    (hAhead [some 2] [some 3]) with
    ⟨-, hShape, hRefused, -, hSplit⟩
  rcases dimensions_concatenate (by decide)
    (hAhead [none] [some 3]) with
    ⟨-, -, -, hEmpty, -⟩
  refine ⟨?_, hEmpty.mpr (.inl List.mem_cons_self)⟩
  have hSome :
      Stmt.header.outcome (ahead [some 2] [some 3]) ≠
        none := by
    rw [Ne, hRefused]
    simp [lengthLimit]
  rcases Option.ne_none_iff_exists'.mp hSome with
    ⟨⟨field, s₁⟩, hRead⟩
  rcases hShape _ List.mem_cons_self field s₁ hRead with
    ⟨-, hLengths, hInnermost, rfl⟩
  refine ⟨field, hRead, hLengths, hInnermost, ?_⟩
  rw [hSplit _ _ _ _ _ (hAhead [] [some 2, some 3]) rfl _
    List.mem_cons_self, hRead]
  rfl

end Field

end Bracketry
