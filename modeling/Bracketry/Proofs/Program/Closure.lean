import Bracketry.Proofs.Discipline.Program
import Bracketry.Proofs.Stmt.ControlFlow

/-
  This file shows that the control flow of a compiled
  program is closed: functions leave only for labels of
  their own, no label is placed twice in the whole program,
  and every merge names exactly the blocks that control
  comes from.

  Main declarations:
    * `FunctionDef.emits_of_lower`
    * `Program.control_flow_closed`
-/

namespace Bracketry

/- Start a function: no lines, no slots, a block open. -/
def Builder.cleared (b : Builder) : Builder :=
  { b with lines := #[], allocated := [], between := false }

namespace FunctionDef

variable {b b' : Builder} {f : FunctionDef} {d : Definition}
variable {fs : List FunctionDef} {ds : List Definition}

theorem placeIf_eq_ok
    {α : Type}
    {needed : Bool}
    {l : Label}
    {x : Build α}
    {a : α} :
    (if needed = true then Build.place l >>= fun _ =>
        x else x) b = .ok a b' ↔
      x (b.placeIf needed l) = .ok a b' := by
  cases needed <;> rfl

/- What a function emits becomes its lines. -/
theorem lower_eq_ok
    (hOk : f.lower b = .ok d b') :
    (do
        lowerParameters f.signature.params
        f.lowerBody) b.cleared = .ok d b' ∧
      d = ⟨f.signature, b'.lines.toList⟩ := by
  have hRest := Step.modify_bind_eq_ok.mp hOk
  refine ⟨hRest, ?_⟩
  rcases Step.bind_eq_ok.mp hRest with ⟨_, _, -, hRest⟩
  rcases Step.bind_eq_ok.mp hRest with ⟨_, _, -, hRest⟩
  rcases Step.bind_eq_ok.mp hRest with ⟨_, _, -, hRest⟩
  have hRest := placeIf_eq_ok.mp hRest
  rcases Step.bind_eq_ok.mp hRest with ⟨_, _, -, hRest⟩
  have hRest := placeIf_eq_ok.mp hRest
  rcases Step.bind_eq_ok.mp hRest with ⟨_, _, -, hRest⟩
  cases hRest
  rfl

/- The lines of a function are the code that it emits. -/
theorem emits_of_lower
    (hOk : f.lower b = .ok d b') :
    b.cleared.Emits f.reach [] [] d.lines b' ∧
      d.signature = f.signature := by
  rcases lower_eq_ok hOk with ⟨hWritten, rfl⟩
  rcases f.lower_respects .emits hWritten with
    ⟨code, hEmits⟩
  have hCode : b'.lines.toList = code := hEmits.lines_eq
  rw [hCode]
  exact ⟨hEmits, rfl⟩

/- Writing a function starts and ends outside of loops. -/
theorem loopExits_of_lower
    (hOk : f.lower b = .ok d b') :
    b'.loopExits = b.loopExits :=
  (emits_of_lower hOk).1.loopExits_eq

/- Functions are written one after the other. -/
theorem lowerAll_cons
    (hOk : lowerAll (f :: fs) b = .ok ds b') :
    ∃ d b₁ others, f.lower b = .ok d b₁ ∧
      lowerAll fs b₁ = .ok others b' ∧
        d :: others = ds := by
  rcases Step.bind_eq_ok.mp hOk with ⟨d, b₁, hFirst, hOk⟩
  rcases Step.bind_eq_ok.mp hOk with
    ⟨others, b₂, hRest, hOk⟩
  rcases Step.pure_eq_ok.mp hOk with ⟨hAll, rfl⟩
  exact ⟨d, b₁, others, hFirst, hRest, hAll⟩

/- Each definition was written outside of loops. -/
theorem lower_of_mem
    (hOk : lowerAll fs b = .ok ds b')
    (hExits : b.loopExits = []) :
    ∀ d ∈ ds, ∃ f ∈ fs, ∃ b₁ b₂,
      b₁.loopExits = [] ∧ f.lower b₁ = .ok d b₂ := by
  induction fs generalizing b ds with
  | nil =>
      rcases Step.pure_eq_ok.mp hOk with ⟨rfl, -⟩
      simp
  | cons f rest ih =>
      rcases lowerAll_cons hOk with
        ⟨d, b₁, others, hFirst, hRest, rfl⟩
      intro other hMem
      rcases List.mem_cons.mp hMem with rfl | hMem
      · exact ⟨f, List.mem_cons_self, b, b₁, hExits, hFirst⟩
      · have hExits₁ :=
          (loopExits_of_lower hFirst).trans hExits
        rcases ih hRest hExits₁ other hMem with
          ⟨g, hIn, hLower⟩
        exact ⟨g, List.mem_cons_of_mem f hIn, hLower⟩

/- The labels are fresh, and no two are the same. -/
theorem labels_of_lower
    (hOk : f.lower b = .ok d b') :
    (Line.labels d.lines).Nodup ∧
      ∀ l ∈ Line.labels d.lines,
        b.nextLabel ≤ l.number ∧
          l.number < b'.nextLabel := by
  rcases (emits_of_lower hOk).1.labels_perm with
    ⟨fresh, hPerm, hNodup, hRange⟩
  rw [List.nil_append] at hPerm
  exact ⟨hPerm.nodup_iff.mpr hNodup,
    fun l hMem => hRange l (hPerm.mem_iff.mp hMem)⟩

/-
  What is numbered upward from function to function has no
  number twice, and none but those handed out on the way.
-/
theorem numbers_of_lowerAll
    {α : Type}
    (names : Definition → List α)
    (number : α → Nat)
    (next : Builder → Nat)
    (hLower :
      ∀ {f : FunctionDef} {b b' : Builder} {d : Definition},
        f.lower b = .ok d b' →
        next b ≤ next b' ∧ (names d).Nodup ∧
          ∀ x ∈ names d, next b ≤ number x ∧
            number x < next b')
    (hOk : lowerAll fs b = .ok ds b') :
    next b ≤ next b' ∧ (ds.flatMap names).Nodup ∧
      ∀ x ∈ ds.flatMap names, next b ≤ number x ∧
        number x < next b' := by
  induction fs generalizing b ds with
  | nil =>
      rcases Step.pure_eq_ok.mp hOk with ⟨rfl, rfl⟩
      simp
  | cons f rest ih =>
      rcases lowerAll_cons hOk with
        ⟨d, b₁, others, hFirst, hRest, rfl⟩
      rcases hLower hFirst with ⟨hLe, hNodup, hRange⟩
      rcases ih hRest with ⟨hLeRest, hNodupRest, hRangeRest⟩
      refine ⟨Nat.le_trans hLe hLeRest, ?_, ?_⟩
      · rw [List.flatMap_cons]
        refine List.nodup_append.mpr
          ⟨hNodup, hNodupRest, ?_⟩
        rintro x hIn _ hLater rfl
        have hLt := (hRange x hIn).2
        have hGe := (hRangeRest x hLater).1
        omega
      · intro x hMem
        rw [List.flatMap_cons, List.mem_append] at hMem
        rcases hMem with hMem | hMem
        · have hBounds := hRange x hMem
          omega
        · have hBounds := hRangeRest x hMem
          omega

theorem label_numbers_of_lowerAll
    (hOk : lowerAll fs b = .ok ds b') :
    b.nextLabel ≤ b'.nextLabel ∧
      (ds.flatMap fun d => Line.labels d.lines).Nodup ∧
      ∀ l ∈ ds.flatMap fun d => Line.labels d.lines,
        b.nextLabel ≤ l.number ∧ l.number < b'.nextLabel :=
  numbers_of_lowerAll _ Label.number Builder.nextLabel
    (fun hFunction =>
      ⟨(emits_of_lower hFunction).1.labels_le,
      labels_of_lower hFunction⟩) hOk

/- No label is placed twice, in all functions. -/
theorem labels_of_lowerAll
    (hOk : lowerAll fs b = .ok ds b') :
    (ds.flatMap fun d => Line.labels d.lines).Nodup :=
  (label_numbers_of_lowerAll hOk).2.1

end FunctionDef

/- A program is written by writing its functions. -/
theorem Program.lower_eq_ok
    {p : Program}
    {listing : Listing}
    (hLower : p.lower = .ok listing) :
    ∃ b, FunctionDef.lowerAll p.functions .empty =
      .ok listing.definitions b := by
  unfold Program.lower at hLower
  split at hLower
  · cases hLower
  · split at hLower
    · rename_i definitions b hAll
      cases hLower
      exact ⟨b, hAll⟩
    · cases hLower

/- A text is read, and what was read is written. -/
theorem compile_eq_ok
    {source output : String}
    (hCompile : compile source = .ok output) :
    ∃ p listing,
      Program.parse source = .ok p ∧ p.lower = .ok listing ∧
        output = listing.text := by
  rcases Step.except_bind_eq_ok.mp hCompile with
    ⟨p, hParse, hRest⟩
  rcases Step.except_bind_eq_ok.mp hRest with
    ⟨listing, hLower, hText⟩
  cases hText
  exact ⟨p, listing, hParse, hLower, rfl⟩

theorem compile_of_lower
    {source : String}
    {p : Program}
    {listing : Listing}
    (hParse : Program.parse source = .ok p)
    (hLower : p.lower = .ok listing) :
    compile source = .ok listing.text := by
  refine Step.except_bind_eq_ok.mpr ⟨p, hParse, ?_⟩
  exact Step.except_bind_eq_ok.mpr ⟨listing, hLower, rfl⟩

namespace Program

/-
  Variables are named like parts of the code and shadow each
  other, an operand waits while an argument inside an index
  branches, and code stands behind a break.
-/
def sample : String :=
  "[int g: bool arg] \x7b return 1; \x7d [int t: int[2] in, int L1]
\x7b int t = L1; while t > 0 \x7b int t = in[L1] +
in[[g: L1 > 0 && L1 < 2]]; break; L1 = t; \x7d return t; \x7d"

theorem sample_lowers :
    ∃ p listing,
      Program.parse sample = .ok p ∧ p.lower = .ok listing ∧
        p.functions.length = 2 ∧
          listing.definitions.length = 2 := by
  have hChecked :
      (Program.parse sample).toOption.any (fun p =>
        p.lower.toOption.any fun listing =>
          decide (p.functions.length = 2 ∧
            listing.definitions.length = 2)) =
        true := by
    decide +kernel
  rcases Step.except_any_eq_true.mp hChecked with
    ⟨p, hParse, hChecked⟩
  rcases Step.except_any_eq_true.mp hChecked with
    ⟨listing, hLower, hChecked⟩
  exact ⟨p, listing, hParse, hLower,
    of_decide_eq_true hChecked⟩

/-
  In what is compiled, control stays in its function and
  every label stands for one place.  A merge follows the
  label of its block, and the blocks it names are the ones,
  each once, that leave for that label.  No line hides a
  target in its text.
-/
theorem control_flow_closed
    {source output : String}
    (hCompile : compile source = .ok output) :
    ∃ p listing,
      Program.parse source = .ok p ∧ p.lower = .ok listing ∧
      output = listing.text ∧
      (listing.definitions.flatMap
        fun d => Line.labels d.lines).Nodup ∧
      ∀ d ∈ listing.definitions,
        (∀ text, .instruction (.verbatim text) ∉ d.lines) ∧
        (∀ l ∈ Line.targets d.lines,
          (Line.labels d.lines).count l = 1) ∧
        (∀ before dest onTrue onFalse behind,
          d.lines =
            before ++
              .instruction (.merge dest onTrue onFalse) ::
                behind →
          onTrue ≠ onFalse ∧
            ∃ earlier done,
              before = earlier ++ [.label done] ∧
                Line.sources none done d.lines =
                  [some onTrue, some onFalse]) := by
  rcases compile_eq_ok hCompile with
    ⟨p, listing, hParse, hLower, hText⟩
  rcases lower_eq_ok hLower with ⟨b, hAll⟩
  refine ⟨p, listing, hParse, hLower, hText,
    FunctionDef.labels_of_lowerAll hAll, ?_⟩
  intro d hMem
  rcases FunctionDef.lower_of_mem hAll rfl d hMem with
    ⟨f, -, b₁, b₂, hExits, hFunction⟩
  have hEmits := (FunctionDef.emits_of_lower hFunction).1
  have hExits' : b₁.cleared.loopExits = [] := hExits
  refine ⟨?_, ?_, ?_⟩
  · exact fun text => hEmits.not_verbatim text
  · intro l hTarget
    have hPlaced : l ∈ Line.labels d.lines := by
      rcases hEmits.placed_of_target hTarget with
        hGiven | hExit | hLabel
      · cases hGiven
      · rw [hExits'] at hExit
        cases hExit.2
      · exact hLabel
    have hNodup := (FunctionDef.labels_of_lower hFunction).1
    exact Nat.le_antisymm (List.nodup_iff_count.mp hNodup l)
      (List.count_pos_iff.mpr hPlaced)
  · intro before dest onTrue onFalse behind hSplit
    have hKnown : Builder.Emits.Known [] [] b₁.cleared := by
      refine ⟨by simp, by simp, ?_⟩
      rw [hExits']
      exact Builder.reserved_nil _
    rcases hEmits.joined hKnown before dest onTrue onFalse
      behind hSplit with
        ⟨hNe, earlier, done, hBefore, -, hSources⟩
    exact ⟨hNe, earlier, done, hBefore, hSources none⟩

/- Both operands of a stored disjunction are merged. -/
def deciding : String :=
  "[bool f: bool a, bool b] \x7b bool c = a || b && !a;
while c \x7b c = false; \x7d return c; \x7d"

theorem deciding_closed :
    ∃ output, compile deciding = .ok output ∧
      ∃ p listing,
        Program.parse deciding = .ok p ∧
          p.lower = .ok listing ∧
        output = listing.text ∧
        (listing.definitions.flatMap
          fun d => Line.labels d.lines).Nodup ∧
        ∀ d ∈ listing.definitions,
          (∀ text, .instruction (.verbatim text) ∉
            d.lines) ∧
          (∀ l ∈ Line.targets d.lines,
            (Line.labels d.lines).count l = 1) ∧
          (∀ before dest onTrue onFalse behind,
            d.lines =
              before ++
                .instruction (.merge dest onTrue onFalse) ::
                  behind →
            onTrue ≠ onFalse ∧
              ∃ earlier done,
                before = earlier ++ [.label done] ∧
                  Line.sources none done d.lines =
                    [some onTrue, some onFalse]) := by
  have hCompiles : (compile deciding).isOk = true := by
    decide +kernel
  cases hCompile : compile deciding with
  | error fault =>
      rw [hCompile] at hCompiles
      cases hCompiles
  | ok output =>
      exact ⟨output, rfl, control_flow_closed hCompile⟩

end Program

end Bracketry
