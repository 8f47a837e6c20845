import Bracketry.Proofs.Parser.Tracking
import Bracketry.Ty.Parser

/-
  This file says which types can be read.

  A type is made of keywords and of the records declared so
  far, and arrays are never made of void.  A length is at
  most the limit; it is zero where none is written, which a
  field does not allow.  Reading looks at no token behind
  the next one.
-/

namespace Bracketry

namespace Ty

/-
  Types made of keywords and known records by arrays, whose
  lengths satisfy `L`.
-/
inductive Formed
    (g : Globals)
    (L : Nat → Prop) : Ty → Prop
| primitive (kind : Primitive) :
    Formed g L (.primitive kind)
| record {r : Record}
    (hKnown : r ∈ g.records) :
    Formed g L (.record r.serial r.name r.members)
| array {n : Nat} {t : Ty}
    (hLength : L n)
    (hVoid : t ≠ .void)
    (hElement : Formed g L t) :
    Formed g L (.array n t)

/- Types as they are written. -/
abbrev Spelled (g : Globals) : Ty → Prop :=
  Formed g (· ≤ lengthLimit)

namespace Formed

variable {g g' : Globals} {L L' : Nat → Prop} {t : Ty}

theorem weaken
    (hFormed : t.Formed g L)
    (hLength : ∀ n, L n → L' n) :
    t.Formed g L' := by
  induction hFormed with
  | primitive kind => exact .primitive kind
  | record hKnown => exact .record hKnown
  | array hOne hVoid _ ih =>
      exact .array (hLength _ hOne) hVoid ih

/- Records that are known stay known. -/
theorem extend
    (hFormed : t.Formed g L)
    (hRecords : ∀ r ∈ g.records, r ∈ g'.records) :
    t.Formed g' L := by
  induction hFormed with
  | primitive kind => exact .primitive kind
  | record hKnown => exact .record (hRecords _ hKnown)
  | array hLength hVoid _ ih =>
      exact .array hLength hVoid ih

/- No length of a fully specified type is zero. -/
theorem positive
    (hFormed : t.Formed g L)
    (hSpecified : t.IsFullySpecified) :
    t.Formed g (fun n => 0 < n ∧ L n) := by
  induction hFormed with
  | primitive kind => exact .primitive kind
  | record hKnown => exact .record hKnown
  | array hLength hVoid _ ih =>
      rw [IsFullySpecified] at hSpecified
      exact .array ⟨hSpecified.1, hLength⟩ hVoid
        (ih hSpecified.2)

/- Members are complete if those of all records are. -/
theorem membersSpecified
    (hFormed : t.Formed g L)
    (hRecords : ∀ r ∈ g.records, r.ty.MembersSpecified) :
    t.MembersSpecified := by
  induction hFormed with
  | primitive kind => rw [MembersSpecified] <;> simp
  | record hKnown => exact hRecords _ hKnown
  | array _ _ _ ih =>
      rw [MembersSpecified]
      exact ih

end Formed

open Parse

variable {N : String → Prop} {c : Context}

/- Arrays of void are not made, and arrays are not void. -/
theorem formed_arrays
    {g : Globals}
    {L : Nat → Prop}
    {lengths : List Nat}
    {base : Ty}
    (hBase : base.Formed g L)
    (hLengths : ∀ n ∈ lengths, L n)
    (hVoid : ¬ (lengths ≠ [] ∧ base = .void)) :
    (arrays lengths base).Formed g L ∧
      (base ≠ .void → arrays lengths base ≠ .void) := by
  induction lengths with
  | nil => exact ⟨hBase, id⟩
  | cons n rest ih =>
      rcases List.forall_mem_cons.mp hLengths with
        ⟨hFirst, hRest⟩
      have hSolid : base ≠ .void :=
        fun h => hVoid ⟨by simp, h⟩
      rcases ih hRest (fun h => hSolid h.2) with
        ⟨hFormed, hSolids⟩
      exact ⟨.array hFirst (hSolids hSolid) hFormed,
        fun _ => nofun⟩

theorem parseName_gives
    {L : Nat → Prop} :
    Gives N c (Formed c.scope.globals L) parseName := by
  apply Leads.get_bind
  rintro s rfl
  split
  · apply Gives.advance.bind
    intro _ _
    exact Gives.pure (.primitive _)
  · split
    · rename_i found hFound
      apply Gives.advance.bind
      intro _ _
      exact Gives.pure
        (.record (List.mem_of_find?_eq_some hFound))
    · exact .throw fun _ => Cause.noConfusion
  · exact .unexpected _

theorem parseLength_gives :
    Gives N c (· ≤ lengthLimit) parseLength := by
  apply Leads.get_bind
  intro s _
  split
  · split
    · exact .mistyped _ _
    · rename_i hLimit
      split
      · exact .mistyped _ _
      · apply Gives.advance.bind
        intro _ _
        exact Gives.pure (Nat.not_lt.mp hLimit)
  · exact Gives.pure (Nat.zero_le _)

theorem parseLengths_gives
    (turns : Nat) :
    Gives N c
      (fun lengths => ∀ n ∈ lengths, n ≤ lengthLimit)
      (parseLengths turns) := by
  induction turns with
  | zero => exact Gives.pure (by simp)
  | succ turns ih =>
      apply (Gives.accept _).bind
      intro more _
      split
      · apply parseLength_gives.bind
        intro length hLength
        apply (Gives.expect _).bind
        intro _ _
        apply ih.bind
        intro rest hRest
        exact Gives.pure
          (List.forall_mem_cons.mpr ⟨hLength, hRest⟩)
      · exact Gives.pure (by simp)

theorem parseDimensions_gives
    {base : Ty}
    (hBase : base.Spelled c.scope.globals) :
    Gives N c
      (fun t => t.Spelled c.scope.globals ∧
        (base ≠ .void → t ≠ .void))
      (parseDimensions base) := by
  apply Leads.get_bind
  intro s _
  apply (parseLengths_gives s.left).bind
  intro lengths hLengths
  apply Leads.get_bind
  intro s₁ _
  apply Leads.refuse (.mistyped _ _)
  intro hVoid
  exact Gives.pure (formed_arrays hBase hLengths hVoid)

theorem parseInner_gives
    {outer : Ty}
    (hOuter : outer.Spelled c.scope.globals) :
    Gives N c
      (fun t => t.Spelled c.scope.globals ∧
        (outer ≠ .void → t ≠ .void))
      (parseInner outer) := by
  fun_induction parseInner outer with
  | case1 n t ih =>
      cases hOuter with
      | array hLength hVoid hElement =>
          apply (ih hElement).bind
          rintro inner ⟨hInner, hSolid⟩
          exact Gives.pure
            ⟨.array hLength (hSolid hVoid) hInner,
              fun _ => nofun⟩
  | case2 base hBase => exact parseDimensions_gives hOuter

end Ty

namespace Field

open Parse

variable {N : String → Prop} {c : Context}

/-
  A type, a name, and the bracket groups of both, as a field
  and a declaration start with them.
-/
def header : Parse Field := do
  let base ← Ty.parseName
  let outer ← Ty.parseDimensions base
  let line := (← get).line
  let name ← Parse.identifier
  let t ← Ty.parseInner outer
  return ⟨name, t, line⟩

theorem parse_eq :
    parse = do
      let field ← header
      unless field.ty.IsFullySpecified do
        Parse.mistyped (.unsizedField field.name) field.line
      return field := by
  simp only [header, bind_assoc, pure_bind]
  rfl

theorem header_gives :
    Gives N c
      (fun field => N field.name ∧
        field.ty.Spelled c.scope.globals)
      header := by
  apply Ty.parseName_gives.bind
  intro base hBase
  apply (Ty.parseDimensions_gives hBase).bind
  rintro outer ⟨hOuter, -⟩
  apply Leads.get_bind
  intro s _
  apply Gives.identifier.bind
  intro name hName
  apply (Ty.parseInner_gives hOuter).bind
  rintro t ⟨hInner, -⟩
  exact Gives.pure ⟨hName, hInner⟩

/- A field that is read has a type with all lengths. -/
structure Read
    (N : String → Prop)
    (g : Globals)
    (field : Field) : Prop where
  named : N field.name
  spelled : field.ty.Spelled g
  specified : field.ty.IsFullySpecified

theorem parse_gives :
    Gives N c (Field.Read N c.scope.globals) parse := by
  rw [parse_eq]
  apply header_gives.bind
  rintro field ⟨hName, hSpelled⟩
  apply Leads.require (.mistyped _ _)
  intro hSpecified
  exact Gives.pure ⟨hName, hSpelled, hSpecified⟩

theorem parseList_gives :
    Gives N c (fun fields => ∀ field ∈ fields,
      field.Read N c.scope.globals) parseList := by
  apply (Gives.accept _).bind
  intro more _
  split
  · exact Gives.separated parse_gives
  · exact Gives.pure (by simp)

end Field

open Parse

variable {P : Prop} {s s' : Parser}

namespace Ty

theorem parseName_tracks :
    Tracks P (fun _ t => t.left + 1 = s.left) parseName
      parseName s s' := by
  refine .lined fun hLined => ?_
  refine .look ?_ fun hAlike => by
    rw [hAlike.lookahead, hAlike.scope, hAlike.line]
  split
  · rename_i p hNext
    refine (Tracks.advance (hNext ▸ Token.noConfusion)).bind
      ?_
    intro _ t t' _ _ hTaken _
    exact .pure hTaken
  · rename_i name hNext
    split
    · refine (Tracks.advance
        (hNext ▸ Token.noConfusion)).bind ?_
      intro _ t t' _ _ hTaken _
      exact .pure hTaken
    · exact .throw hLined.here
  · exact .unexpected _

theorem parseLength_tracks :
    Tracks P (fun _ _ => True) parseLength parseLength
      s s' := by
  refine .lined fun hLined => ?_
  refine .look ?_ fun hAlike => by
    rw [hAlike.lookahead, hAlike.line]
  split
  · rename_i n hNext
    split
    · exact .mistyped hLined.here
    · split
      · exact .mistyped hLined.here
      · refine (Tracks.advance
          (hNext ▸ Token.noConfusion)).bind ?_
        intro _ t t' _ _ _ _
        exact .pure trivial
  · exact .pure trivial

/- A further group, if there is a bracket. -/
def lengthTurn
    (again : Unit → Parse (List Nat))
    (_ : Unit) : Parse (List Nat) := do
  if ← Parse.accept (.symbol .leftBracket) then
    let length ← parseLength
    Parse.expect (.symbol .rightBracket)
    let rest ← again ()
    return length :: rest
  else
    return []

theorem parseLengths_repeats :
    Repeats lengthTurn fun m _ => parseLengths m := by
  refine ⟨fun m => rfl, ?_⟩
  intro again _ s hEnd
  have hNone : s.lookahead ≠ .symbol .leftBracket :=
    hEnd ▸ Token.noConfusion
  rw [lengthTurn, Step.bind_of_ok (accept_of_ne hNone)]
  rfl

theorem lengthTurn_guarded :
    Guarded P (fun _ _ => True) (fun _ _ _ _ => True)
      lengthTurn lengthTurn s s' := by
  intro again again' hAgain _ _
  refine .accept ?_ fun _ => .pure trivial
  intro hNext
  refine (Tracks.advance (hNext ▸ Token.noConfusion)).bind
    ?_
  intro _ t t' _ _ hTaken hAs
  refine parseLength_tracks.bind ?_
  intro length u u' _ hTook₂ _ hAs₂
  have hLe := hTook₂.left_le
  refine (Tracks.expect Token.noConfusion).bind ?_
  intro _ v v' _ _ hTaken₃ hAs₃
  refine (hAgain () v v' trivial (by omega) (by omega)).bind
    ?_
  intro rest w w' _ _ _ _
  exact .pure trivial

theorem parseDimensions_tracks
    {base : Ty} :
    Tracks P (fun _ _ => True) (parseDimensions base)
      (parseDimensions base) s s' := by
  refine .get ?_
  refine (parseLengths_repeats.tracks parseLengths_repeats
    (fun _ _ _ _ => lengthTurn_guarded) (Nat.le_refl _)
      (Nat.le_refl _) () trivial).bind ?_
  intro lengths t t' hLined₁ _ _ _
  refine .look ?_ fun hAlike => by rw [hAlike.line]
  exact .refuse (.mistyped hLined₁.here) fun _ =>
    .pure trivial

theorem parseInner_tracks :
    ∀ t : Ty, Tracks P (fun _ _ => True) (parseInner t)
      (parseInner t) s s'
| .array _ element => by
    rw [parseInner]
    exact (parseInner_tracks element).bind
      fun _ _ _ _ _ _ _ =>
        .pure trivial
| .primitive _ => parseDimensions_tracks
| .pointer _ => parseDimensions_tracks
| .record _ _ _ => parseDimensions_tracks

end Ty

namespace Field

/- A field is paid with what keeping a parameter takes. -/
abbrev Paid (P : Prop) : Parser → Field → Parser → Prop :=
  Parser.Paid P (fun _ => 2) fun field => [field.line]

abbrev AllPaid (P : Prop) : Parser → List Field →
    Parser → Prop :=
  Parser.AllPaid P (fun _ => 2) fun field => [field.line]

theorem header_tracks :
    Tracks P (Paid P s) header header s s' := by
  refine Ty.parseName_tracks.bind ?_
  intro base t t' _ _ hTaken _
  refine Ty.parseDimensions_tracks.bind ?_
  intro outer u u' hLined₂ hTook₂ _ _
  have hLe₂ := hTook₂.left_le
  refine .look ?_ fun hAlike => by rw [hAlike.line]
  refine Tracks.identifier.bind ?_
  intro name v v' _ hTook₃ hTaken₃ _
  refine (Ty.parseInner_tracks outer).bind ?_
  intro inner w w' _ hTook₄ _ _
  have hLe₄ := hTook₄.left_le
  exact .pure ⟨by omega, by omega,
    hLined₂.noted (hTook₃.trans hTook₄)⟩

/- The line of what was read has been reached. -/
theorem Paid.reached
    {field : Field}
    {t : Parser}
    (hPaid : Paid P s field t) :
    t.Reached P field.line :=
  hPaid.lines field.line
    (List.mem_singleton_self field.line)

theorem parse_tracks :
    Tracks P (Paid P s) parse parse s s' := by
  rw [parse_eq]
  refine header_tracks.bind ?_
  intro field t t' _ _ hPaid _
  exact .require (.mistyped hPaid.reached) fun _ =>
    .pure hPaid

theorem parseList_tracks :
    Tracks P (AllPaid P s) parseList parseList s s' := by
  refine .accept ?_ ?_
  · intro hNext
    refine (Tracks.advance (hNext ▸ Token.noConfusion)).bind
      ?_
    intro _ t t' _ hTook _ _
    exact (separated_tracks fun _ _ _ _ =>
      parse_tracks).weaken
      fun _ _ _ hItems => hItems.2.since hTook
  · intro _
    exact .pure .nil

end Field

end Bracketry
