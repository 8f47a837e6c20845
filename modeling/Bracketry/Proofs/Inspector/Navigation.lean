import Bracketry.Inspector.Frame
import Bracketry.Proofs.Program.Definitions

/-
  This file tells which functions the key for the next
  function comes to, when the screen is drawn before each
  press.

  A jump starts from the first line that the code is
  scrolled to, and drawing takes that line back to where the
  last page starts.  So the key goes from function to
  function as far as they start no later than that.  The
  next one is left again by the next drawing, and every
  further press comes back to it.

  Main declarations:
    * `Inspector.near` and `Program.headings`
    * `Inspector.navigation_reports`
    * `Inspector.crowded_unvisited`
-/

namespace Bracketry

/- The header of a function as the status shows it. -/
def Prototype.heading (p : Prototype) : String :=
  "define " ++ p.returnType.text ++ " " ++ p.name.storage ++
    "(" ++ String.intercalate ", " (p.params.map fun x =>
      x.incoming.typed) ++ ")"

theorem Prototype.opening_eq
    (p : Prototype) :
    ∃ front, p.heading = front ++ ")" ∧
      p.opening = front ++ ") \x7b" :=
  ⟨_, rfl, rfl⟩

/- One brace behind a parenthesis is dropped. -/
theorem Text.dropEnd_brace
    (front : List Char) :
    dropEnd " \x7b".toList (front ++ ") \x7b".toList) =
      front ++ ")".toList := by
  have hReverse :
      (front ++ ") \x7b".toList).reverse =
        '\x7b' :: ' ' :: ')' :: front.reverse := by
    simp
  rw [dropEnd, hReverse, List.length_append]
  change
    (dropCopies ['\x7b', ' '] (front.length + 2)
      (')' :: front.reverse)).reverse = _
  rw [dropCopies, if_neg (by simp), List.reverse_cons,
    List.reverse_reverse]
  rfl

namespace Inspector

variable {line : Nat}

/- A line that opens a function is shown as its heading. -/
theorem header_of_opening
    {p : Prototype}
    (hLine : (Text.lines code)[line]? =
      some p.opening.toList) :
    header code line = p.heading := by
  rcases p.opening_eq with ⟨front, hHeading, hOpening⟩
  rw [hOpening, String.toList_append] at hLine
  rw [header, hLine, Option.getD_some, Text.dropEnd_brace,
    hHeading, ← String.toList_append, String.ofList_toList]

------------------------------------------------------------
-- Presses
------------------------------------------------------------

/-
  What the status says after each of several presses of a
  key, with the screen drawn before each of them.
-/
def statuses
    (key : Key)
    (width height : Nat) :
    Nat → Inspector → List String
| 0, _ => []
| count + 1, i =>
    let after := (i.draw width height).1.press key
    after.status :: statuses key width height count after

/- The first line of the last page of code on a screen. -/
def lastPage
    (code : String)
    (height : Nat) : Nat :=
  (Text.lines code).length - visibleLines (height - 1)

/- The functions that start behind a line. -/
def ahead
    (code : String)
    (line : Nat) : List Nat :=
  (functionLines code).filter (line < ·)

/- Of those, the functions up to the last page. -/
def near
    (code : String)
    (height line : Nat) : List Nat :=
  (ahead code line).filter (· ≤ lastPage code height)

/- What a press says when these functions lie ahead. -/
def report
    (code : String)
    (starts : List Nat) : String :=
  (starts.head?.map (header code)).getD Direction.next.stuck

variable {code : String} {i : Inspector}

/- What lies ahead farther on lies ahead already. -/
theorem ahead_filter
    {line other : Nat}
    (hLe : line ≤ other) :
    ahead code other =
      (ahead code line).filter (other < ·) := by
  rw [ahead, ahead, List.filter_filter]
  refine List.filter_congr fun n _ => ?_
  rw [← Bool.decide_and, decide_eq_decide]
  exact ⟨fun hLess => ⟨hLess, hLe.trans_lt hLess⟩, And.left⟩

variable {rest : List Nat}

/- Behind the first function ahead lie the others. -/
theorem ahead_of_cons
    {line start : Nat}
    (hAhead : ahead code line = start :: rest) :
    ahead code start = rest ∧ ∀ n ∈ rest, start < n := by
  have hMem : start ∈ ahead code line := by
    rw [hAhead]
    exact List.mem_cons_self
  have hLess : line < start :=
    of_decide_eq_true (List.mem_filter.mp hMem).2
  have hSorted : (start :: rest).Pairwise (· < ·) := by
    rw [← hAhead]
    exact (functionLines_locate code).1.filter _
  have hBehind := (List.pairwise_cons.mp hSorted).1
  refine ⟨?_, hBehind⟩
  rw [ahead_filter hLess.le, hAhead, List.filter_cons_of_neg
    (by simp)]
  exact List.filter_eq_self.mpr fun n hIn =>
    decide_eq_true (hBehind n hIn)

theorem near_of_cons
    {height line start : Nat}
    (hAhead : ahead code line = start :: rest)
    (hStart : start ≤ lastPage code height) :
    near code height line =
      start :: near code height start := by
  rw [near, near, hAhead, (ahead_of_cons hAhead).1,
    List.filter_cons_of_pos (by simpa using hStart)]

/- Functions ahead lie beyond if the first one does. -/
theorem near_of_beyond
    {height line start : Nat}
    (hPage : line ≤ lastPage code height)
    (hAhead : ahead code line = start :: rest)
    (hStart : lastPage code height < start) :
    near code height line = [] ∧
      ahead code (lastPage code height) =
        start :: rest := by
  have hBeyond : ∀ n ∈ start :: rest, lastPage code height <
    n :=
    List.forall_mem_cons.mpr
      ⟨hStart, fun n hIn =>
        hStart.trans ((ahead_of_cons hAhead).2 n hIn)⟩
  rw [near, ahead_filter hPage, hAhead]
  constructor
  · exact List.filter_eq_nil_iff.mpr fun n hIn => by
      simpa using hBeyond n hIn
  · exact List.filter_eq_self.mpr fun n hIn =>
      decide_eq_true (hBeyond n hIn)

theorem near_lastPage
    (code : String)
    (height : Nat) :
    near code height (lastPage code height) = [] := by
  refine List.filter_eq_nil_iff.mpr fun n hIn => ?_
  simpa using (List.mem_filter.mp hIn).2

theorem settle_of_ok
    (height : Nat)
    (hResult : i.result = .ok code) :
    i.settle height =
      { i with
        sourceScroll :=
          clamp i.sourceScroll (Text.lines i.source).length
            (visibleLines height)
        codeScroll :=
          clamp i.codeScroll (Text.lines code).length
            (visibleLines height) } := by
  rw [settle, hResult]

theorem jump_next
    (hResult : i.result = .ok code)
    (hScroll : i.codeScroll ≤ (Text.lines code).length) :
    (i.jump .next).result = .ok code ∧
      (i.jump .next).codeScroll =
        (ahead code i.codeScroll).headD i.codeScroll ∧
      (i.jump .next).status =
        report code (ahead code i.codeScroll) := by
  have hTarget :
      Direction.next.target? i.codeScroll
        (functionLines code) =
        (ahead code i.codeScroll).head? :=
          List.head?_filter.symm
  rw [jump, hResult]
  dsimp only
  rw [Nat.min_eq_left hScroll, hTarget, report]
  cases ahead code i.codeScroll with
  | nil => exact ⟨rfl, rfl, rfl⟩
  | cons start rest => exact ⟨rfl, rfl, rfl⟩

/-
  Drawing takes the line back to the last page, and the key
  goes on to the first function that lies ahead of it.
-/
theorem press_next
    (width height : Nat)
    (hResult : i.result = .ok code) :
    ((i.draw width height).1.press (.char 'n')).result =
      .ok code ∧
        ((i.draw width height).1.press
          (.char 'n')).codeScroll =
        (ahead code
          (min i.codeScroll (lastPage code height))).headD
          (min i.codeScroll (lastPage code height)) ∧
      ((i.draw width height).1.press (.char 'n')).status =
        report code
          (ahead code
            (min i.codeScroll (lastPage code height))) := by
  have hScroll :
      (i.draw width height).1.codeScroll =
        min i.codeScroll (lastPage code height) := by
    rw [draw, settle_of_ok _ hResult]
    rfl
  have hKept : (i.draw width height).1.result =
      .ok code := by
    rw [draw, settle_of_ok _ hResult]
    exact hResult
  rw [← hScroll]
  refine jump_next hKept ?_
  rw [hScroll]
  exact (Nat.min_le_right _ _).trans (Nat.sub_le _ _)

/-
  The key reports the functions ahead as far as the last
  page, and from there on always the same.
-/
theorem statuses_eq
    (width height count : Nat)
    (hResult : i.result = .ok code)
    (hLine : min i.codeScroll (lastPage code height) =
      line) :
    statuses (.char 'n') width height count i =
      ((near code height line).map (header code)).take
        count ++ List.replicate
          (count - (near code height line).length)
          (report code
            (ahead code (lastPage code height))) := by
  have hPage : line ≤ lastPage code height :=
    hLine ▸ Nat.min_le_right _ _
  induction count generalizing i line with
  | zero => simp [statuses]
  | succ count ih =>
      rcases press_next width height hResult with
        ⟨hKept, hScroll, hStatus⟩
      rw [hLine] at hScroll hStatus
      rw [statuses, hStatus]
      cases hAhead : ahead code line with
      | nil =>
          -- nothing lies ahead, and the line stays
          rw [hAhead] at hScroll
          have hNear : near code height line = [] := by
            rw [near, hAhead]
            rfl
          have hFar : ahead code (lastPage code height) =
              [] := by
            rw [ahead_filter hPage, hAhead]
            rfl
          rw [ih hKept (hScroll ▸ Nat.min_eq_left hPage)
            hPage, hNear, hFar]
          simp [List.replicate_succ]
      | cons start rest =>
          rw [hAhead] at hScroll
          by_cases hStart : start ≤ lastPage code height
          · -- the line moves on to the function
            rw [ih hKept (hScroll ▸ Nat.min_eq_left hStart)
              hStart, near_of_cons hAhead hStart,
                List.length_cons,
              Nat.add_sub_add_right]
            rfl
          · -- the next drawing takes the line back to the
            -- last page
            rcases near_of_beyond hPage hAhead
              (Nat.lt_of_not_le hStart) with
              ⟨hNear, hFar⟩
            rw [ih hKept
              (hScroll ▸
                Nat.min_eq_right (Nat.le_of_not_le hStart))
                  le_rfl,
              hNear, near_lastPage, hFar]
            simp [List.replicate_succ]

end Inspector

------------------------------------------------------------
-- Functions
------------------------------------------------------------

/- The headings of functions on chosen lines. -/
def Program.headings
    (p : Program)
    (code : String)
    (chosen : Nat → Bool) : List String :=
  (((Inspector.functionLines code).zip p.functions).filter
    (chosen ·.1)).map (·.2.signature.heading)

namespace Inspector

variable {code : String}

theorem headings_eq
    {starts : List Nat}
    {functions : List FunctionDef}
    (chosen : Nat → Bool)
    (hLocated :
      starts.map ((Text.lines code)[·]?) =
        functions.map fun f =>
          some f.signature.opening.toList) :
    ((starts.zip functions).filter (chosen ·.1)).map
      (·.2.signature.heading) =
      (starts.filter chosen).map (header code) := by
  induction starts generalizing functions with
  | nil => rfl
  | cons start starts ih =>
      cases functions with
      | nil => cases hLocated
      | cons f functions =>
          rcases List.cons.inj hLocated with ⟨hHere, hRest⟩
          have hHeader := header_of_opening hHere
          cases hChosen : chosen start <;>
            simp [hChosen, hHeader, ih hRest]

theorem heading_ne_stuck
    (p : Prototype) :
    p.heading ≠ Direction.next.stuck := by
  intro hSame
  have hFirst := congrArg (·.toList.head?) hSame
  simp [Prototype.heading, Direction.stuck] at hFirst

/-
  Every function is visited only when none starts behind the
  first line of the last page.
-/
theorem visited_iff
    (width height : Nat)
    {i : Inspector}
    (hResult : i.result = .ok code)
    (hScroll : i.codeScroll = 0)
    (hHeaders :
      ∀ line ∈ functionLines code, header code line ≠
        Direction.next.stuck) :
    statuses (.char 'n') width height
        ((ahead code 0).length + 1) i =
        (ahead code 0).map (header code) ++
          [Direction.next.stuck] ↔
      ∀ line ∈ functionLines code, line ≤
        lastPage code height := by
  have hLine : min i.codeScroll (lastPage code height) =
      0 := by
    rw [hScroll, Nat.zero_min]
  rw [statuses_eq width height _ hResult hLine]
  constructor
  · -- the last press would report a function
    intro hVisited line hIn
    by_contra hBeyond
    have hLength : (near code height 0).length ≤
      (ahead code 0).length :=
      List.length_filter_le ..
    have hLast := congrArg List.getLast? hVisited
    rw [Nat.succ_sub hLength, List.replicate_succ',
      ← List.append_assoc,
      List.getLast?_concat, List.getLast?_concat] at hLast
    have hFar : line ∈ ahead code (lastPage code height) :=
      List.mem_filter.mpr
        ⟨hIn, decide_eq_true (Nat.lt_of_not_le hBeyond)⟩
    cases hAhead : ahead code (lastPage code height) with
    | nil =>
        rw [hAhead] at hFar
        cases hFar
    | cons start rest =>
        rw [hAhead] at hLast
        have hStart :
            start ∈ ahead code (lastPage code height) := by
          rw [hAhead]
          exact List.mem_cons_self
        exact hHeaders start (List.mem_filter.mp hStart).1
          (Option.some.inj hLast)
  · intro hAll
    have hNear : near code height 0 = ahead code 0 :=
      List.filter_eq_self.mpr fun n hIn =>
        decide_eq_true (hAll n (List.mem_filter.mp hIn).1)
    have hFar : ahead code (lastPage code height) = [] :=
      List.filter_eq_nil_iff.mpr fun n hIn => by
        simpa using hAll n hIn
    rw [hNear, hFar, Nat.add_sub_cancel_left,
      List.take_of_length_le (by simp)]
    rfl

/-
  Press by press, the key for the next function reports the
  headings of the functions behind the first line, in order,
  as far as they start no later than the last page.  Every
  press after those reports the first of the functions
  farther on, or that there is none.  So all are reported,
  and then that there is none, exactly when no function
  starts farther on.
-/
theorem navigation_reports
    {source code : String}
    (hCompile : compile source = .ok code)
    (file : String)
    (width height : Nat) :
    ∃ p, Program.parse source = .ok p ∧
      (functionLines code).length = p.functions.length ∧
      (p.functions.map (·.signature.name.name)).Nodup ∧
      (∀ count,
        statuses (.char 'n') width height count
          (ofSource file source) = (p.headings code fun n =>
            0 < n && n ≤ lastPage code height).take count ++
          List.replicate
            (count - (p.headings code fun n =>
              0 < n && n ≤ lastPage code height).length)
            ((p.headings code fun n =>
              lastPage code height < n).head?.getD
              "Already at the last function")) ∧
      (statuses (.char 'n') width height
          ((p.headings code fun n => 0 < n).length + 1)
          (ofSource file source) =
          (p.headings code fun n => 0 < n) ++
            ["Already at the last function"] ↔
        ∀ line ∈ functionLines code, line ≤
          lastPage code height) := by
  rcases compile_eq_ok hCompile with
    ⟨p, listing, hParse, hLower, rfl⟩
  rcases Program.exists_read hParse with ⟨s, hRead⟩
  have hMatched := Program.matched_of_lower hRead hLower
  have hHeadings :
      ∀ chosen, p.headings listing.text chosen =
        ((functionLines listing.text).filter chosen).map
          (header listing.text) :=
    fun chosen => headings_eq chosen hMatched.located
  have hNear :
      (functionLines listing.text).filter
          (fun n => 0 < n &&
            n ≤ lastPage listing.text height) =
        near listing.text height 0 := by
    rw [near, ahead, List.filter_filter]
    exact List.filter_congr fun n _ => Bool.and_comm ..
  refine ⟨p, hParse, ?_, hMatched.names, fun count => ?_,
    ?_⟩
  · simpa using congrArg List.length hMatched.located
  · rw [hHeadings, hHeadings, hNear, List.length_map,
      List.head?_map]
    exact statuses_eq width height count hCompile
      (Nat.zero_min _)
  · rw [hHeadings, List.length_map]
    refine visited_iff width height hCompile rfl
      fun line hIn => ?_
    have hLine := List.mem_map_of_mem
      (f := ((Text.lines listing.text)[·]?)) hIn
    rw [hMatched.located] at hLine
    rcases List.mem_map.mp hLine with ⟨f, -, hOpening⟩
    rw [header_of_opening hOpening.symm]
    exact heading_ne_stuck f.signature

/- Three functions of one line each. -/
def crowded : String :=
  "[int one] \x7b return 1; \x7d
[int two] \x7b return 2; \x7d
[int three] \x7b return 3; \x7d"

theorem crowded_visited :
    ∃ code, compile crowded = .ok code ∧
      (∀ line ∈ functionLines code,
        line ≤ lastPage code 6) ∧
      ∃ p, Program.parse crowded = .ok p ∧
        (p.functions.map (·.signature.name.name)).Nodup ∧
        statuses (.char 'n') 80 6
            ((p.headings code fun n => 0 < n).length + 1)
            (ofSource "crowded" crowded) =
          (p.headings code fun n => 0 < n) ++
            ["Already at the last function"] := by
  have hChecked :
      (compile crowded).toOption.any (fun code =>
        (functionLines code).all (· ≤ lastPage code 6)) =
          true := by
    decide +kernel
  rcases Step.except_any_eq_true.mp hChecked with
    ⟨code, hCompile, hBefore⟩
  have hAll : ∀ line ∈ functionLines code, line ≤
      lastPage code 6 := by
    simpa using hBefore
  rcases navigation_reports hCompile "crowded" 80 6 with
    ⟨p, hParse, -, hNames, -, hVisited⟩
  exact ⟨code, hCompile, hAll, p, hParse, hNames,
    hVisited.mpr hAll⟩

/-
  On a screen that shows all of the code at once, every
  press reports the second function.
-/
theorem crowded_unvisited :
    statuses (.char 'n') 80 24 3
        (ofSource "crowded" crowded) =
        List.replicate 3 "define i32 @two()" ∧
      statuses (.char 'n') 80 24 3
        (ofSource "crowded" crowded) ≠
        ["define i32 @two()", "define i32 @three()",
          "Already at the last function"] := by
  have hStatuses :
      statuses (.char 'n') 80 24 3
        (ofSource "crowded" crowded) =
        List.replicate 3 "define i32 @two()" := by
    decide +kernel
  refine ⟨hStatuses, ?_⟩
  rw [hStatuses]
  decide

end Inspector

end Bracketry
