import Bracketry.Inspector
import Bracketry.Proofs.Program.Vocabulary

/-
  This file shows that definitions and calls match.

  A header that never gets a body is a fault, for the first
  of them.  In what is compiled there is one opening line
  for each function, every function that is named in another
  line is called there with the types it is defined with,
  and every record is defined once, behind those it is made
  of.

  Main declarations:
    * `Definition.types` and `Program.Matched`
    * `Listing.defined_once` and `Program.definitions_match`
-/

namespace Bracketry

/- The line that opens a function with a given header. -/
def Prototype.opening (p : Prototype) : String :=
  "define " ++ p.returnType.text ++ " " ++ p.name.storage ++
    "(" ++ String.intercalate ", " (p.params.map fun x =>
      x.incoming.typed) ++
    ") \x7b"

/- The lines found open functions, one by one. -/
theorem Inspector.functionLines_locate
    (code : String) :
    (functionLines code).Pairwise (· < ·) ∧
      (functionLines code).map ((Text.lines code)[·]?) =
        ((Text.lines code).filter
          ("define ".toList.isPrefixOf ·)).map some := by
  unfold functionLines
  generalize Text.lines code = rows
  constructor
  · have hNumbers : (rows.zipIdx.map Prod.snd).Pairwise
        (· < ·) := by
      rw [List.zipIdx_map_snd]
      exact List.pairwise_lt_range'
    exact hNumbers.sublist (List.filter_sublist.map _)
  · rw [List.map_map]
    have hFound :
        ∀ numbered ∈ rows.zipIdx.filter fun numbered =>
            "define ".toList.isPrefixOf numbered.1,
          rows[numbered.2]? = some numbered.1 := by
      intro numbered hMem
      exact List.mem_zipIdx_iff_getElem?.mp
        (List.mem_of_mem_filter hMem)
    have hRows :
        (rows.zipIdx.map Prod.fst).filter
            ("define ".toList.isPrefixOf ·) =
          rows.filter ("define ".toList.isPrefixOf ·) := by
      rw [List.zipIdx_map_fst]
    rw [List.filter_map] at hRows
    rw [← hRows, List.map_map]
    exact List.map_congr_left hFound

/- A line that defines the record of a name. -/
def Listing.defines
    (name : String)
    (line : List Char) : Bool :=
  ("%" ++ name ++ " = ").toList.isPrefixOf line

/- The name of a record ends at the blank behind it. -/
theorem Record.defines_row
    {r : Record}
    {name : String}
    (hOwn : Text.IsWord r.name)
    (hName : Text.IsWord name) :
    Listing.defines name r.row.toList =
      decide (r.name = name) := by
  have hTake :
      ∀ {text : String} {rest : List Char},
        Text.IsWord text →
          (text.toList ++ ' ' :: rest).takeWhile
            isWordPart =
          text.toList := by
    intro text rest hWord
    rw [List.takeWhile_append_of_pos hWord,
      List.takeWhile_cons_of_neg (by decide),
        List.append_nil]
  unfold Listing.defines
  by_cases hEq : r.name = name
  · rw [decide_eq_true hEq, List.isPrefixOf_iff_prefix,
      ← hEq]
    exact ⟨r.definition.toList, (String.toList_append).symm⟩
  · rw [decide_eq_false hEq, Bool.eq_false_iff]
    intro hPrefix
    rcases List.isPrefixOf_iff_prefix.mp hPrefix with
      ⟨rest, hRow⟩
    have hSplit :
        name.toList ++ ' ' :: ('=' :: ' ' :: rest) =
          r.name.toList ++ ' ' ::
            ('=' :: ' ' :: r.definition.toList) := by
      simpa [Record.row] using hRow
    have hSame :=
      congrArg (List.takeWhile isWordPart) hSplit
    rw [hTake hName, hTake hOwn] at hSame
    exact hEq (String.toList_inj.mp hSame.symm)

/- One line defines a record, if no other has its name. -/
theorem Listing.defined_once
    {l : Listing}
    {r : Record}
    (hNames : (l.records.map Record.name).Nodup)
    (hWords : ∀ other ∈ l.records, Text.IsWord other.name)
    (hMem : r ∈ l.records) :
    (l.rows.map String.toList).countP (defines r.name) =
      1 := by
  have hName := hWords r hMem
  have hHead :
      ∀ row : String, row.toList.head? ≠ some '%' →
        defines r.name row.toList = false := by
    intro row hHead
    rw [Bool.eq_false_iff]
    intro hPrefix
    rcases List.isPrefixOf_iff_prefix.mp hPrefix with
      ⟨rest, hRow⟩
    rw [← hRow] at hHead
    simp at hHead
  have hLine :
      ∀ line : Line, (defines r.name ∘ String.toList)
        line.row = false := by
    intro line
    refine hHead line.row ?_
    cases line <;> simp [Line.row, Label.text]
  have hHeaders :
      (l.definitions.map Definition.header).filter
        (defines r.name ∘ String.toList) = [] := by
    rw [List.filter_eq_nil_iff, List.forall_mem_map]
    intro d _
    rw [Bool.not_eq_true]
    refine hHead d.header ?_
    simp [Definition.header]
  have hRecords :
      ∀ other ∈ l.records,
        ((defines r.name ∘ String.toList) ∘ Record.row)
          other = ((· == r.name) ∘ Record.name) other := by
    intro other hOther
    exact Record.defines_row (hWords other hOther) hName
  rw [List.countP_map, List.countP_eq_length_filter,
    filter_rows hLine (hHead _ (by decide))
      (hHead _ (by decide)), hHeaders,
    List.append_nil, ← List.countP_eq_length_filter,
      List.countP_map,
    List.countP_congr
      (fun other hOther => by rw [hRecords other hOther]),
    ← List.countP_map]
  exact List.count_eq_one_of_mem hNames
    (List.mem_map_of_mem hMem)

------------------------------------------------------------
-- Programs
------------------------------------------------------------

/- The types in a line of code. -/
def Line.types : Line → List Ty
| .label _ => []
| .instruction i => i.types

/- All types in the code of a function. -/
def Definition.types (d : Definition) : List Ty :=
  d.signature.returnType :: d.signature.paramTypes ++
    d.lines.flatMap Line.types

theorem Listing.Proper.types
    {g : Globals}
    {l : Listing}
    {d : Definition}
    (hProper : l.Proper g)
    (hMem : d ∈ l.definitions) :
    ∀ t ∈ d.types, t.Known g.records := by
  rcases hProper.signatures d hMem with
    ⟨-, hReturn, hParams⟩
  refine List.forall_mem_append.mpr
    ⟨List.forall_mem_cons.mpr ⟨hReturn, ?_⟩, ?_⟩
  · rw [Prototype.paramTypes, List.forall_mem_map]
    exact fun x hIn => (hParams x hIn).ty
  · intro t hType
    rcases List.mem_flatMap.mp hType with
      ⟨line, hLine, hType⟩
    cases line with
    | label l => cases hType
    | instruction i =>
        exact (hProper.instructions d hMem i hLine).types t
          hType

namespace Program

/- Definitions, calls and records match in a text. -/
structure Matched
    (p : Program)
    (listing : Listing)
    (output : String) : Prop where
  sorted : (p.functions.map (·.line)).Pairwise (· ≤ ·)
  names : (p.functions.map (·.signature.name.name)).Nodup
  openings :
    (Text.lines output).filter
      ("define ".toList.isPrefixOf ·) =
      p.functions.map (·.signature.opening.toList)
  starts : (Inspector.functionLines output).Pairwise (· < ·)
  located :
    (Inspector.functionLines output).map
      ((Text.lines output)[·]?) =
      p.functions.map fun f =>
        some f.signature.opening.toList
  calls :
    ∀ line ∈ Text.lines output, '@' ∈ line →
      (∃ f ∈ p.functions,
        line = f.signature.opening.toList) ∨
        ∃ f ∈ p.functions, ∃ dest args,
          args.map Value.ty = f.signature.paramTypes ∧
            line =
              ("  " ++
                (Instruction.call dest
                  f.signature.returnType
              f.signature.name.storage args).text).toList
  records :
    (Text.lines output).filter (·.head? = some '%') =
      p.globals.records.map (·.row.toList)
  defined :
    ∀ r ∈ p.globals.records,
      (Text.lines output).countP (Listing.defines r.name) =
        1
  ranked :
    ∀ (i : Nat) (r : Record), p.globals.records[i]? =
      some r → ∀ m ∈ r.members,
        m.2.Known (p.globals.records.take i)
  used :
    ∀ d ∈ listing.definitions, ∀ t ∈ d.types,
      t.Known p.globals.records

section

variable {source : String} {p : Program} {s : Parser}
variable {listing : Listing}
variable (hRead : Program.read source = .ok p s)
variable (hLower : p.lower = .ok listing)
include hRead hLower

omit hRead in
theorem openings_of_lower :
    listing.definitions.map Definition.header =
      p.functions.map (·.signature.opening) := by
  rcases lower_eq_ok hLower with ⟨b, hAll⟩
  have hSignatures := congrArg (List.map Prototype.opening)
    (FunctionDef.signatures_of_lowerAll hAll)
  rw [List.map_map, List.map_map] at hSignatures
  exact hSignatures

/- A call names a function and has its types. -/
theorem function_of_call
    {d : Definition}
    {dest : Option Nat}
    {t : Ty}
    {callee : String}
    {args : List Value}
    (hMem : d ∈ listing.definitions)
    (hCall : Line.instruction (.call dest t callee args) ∈
      d.lines) :
    ∃ f ∈ p.functions,
      callee = f.signature.name.storage ∧
        t = f.signature.returnType ∧
        args.map Value.ty = f.signature.paramTypes := by
  have hParse := parse_of_read hRead
  rcases (proper_of_lower hRead hLower).instructions d hMem
    _ hCall with
    ⟨-, -, header, hHeader, rfl, rfl, hArgs⟩
  rcases function_of_header hParse hHeader
    (implements_of_lower hParse hLower header hHeader) with
      ⟨f, hF, hName, hTypes⟩
  refine ⟨f, hF, by rw [hName], ?_, hArgs.symm.trans hTypes⟩
  rw [Prototype.returnType, Prototype.returnType, hName]

theorem matched_of_lower :
    p.Matched listing listing.text := by
  have hParse := parse_of_read hRead
  have hProper := proper_of_lower hRead hLower
  have hRanked := ranked_of_parse hParse
  have hRecords := hProper.records
  have hHeaders := openings_of_lower hLower
  rcases worded_of_read hRead with
    ⟨hWorded, hGlobals, hSorted⟩
  have hOpenings :
      (Text.lines listing.text).filter
        ("define ".toList.isPrefixOf ·) =
        p.functions.map (·.signature.opening.toList) := by
    have hRows :=
      congrArg (List.map String.toList) listing.opening_rows
    rw [hHeaders, List.map_map] at hRows
    rw [hProper.lines_eq, List.filter_map]
    exact hRows
  rcases Inspector.functionLines_locate listing.text with
    ⟨hStarts, hLocated⟩
  refine
    { sorted := hSorted
      names := names_nodup hParse
      openings := hOpenings
      starts := hStarts
      located := ?_
      calls := ?_
      records := ?_
      defined := ?_
      ranked := hRanked.members
      used := fun d hMem => hProper.types hMem }
  · rw [hLocated, hOpenings, List.map_map]
    rfl
  · rw [hProper.lines_eq, List.forall_mem_map]
    intro row hRow hNamed
    rcases hProper.naming_rows hRow hNamed with
      ⟨d, hMem, rfl⟩ | ⟨d, hMem, dest, t, callee, args,
        hCall, rfl⟩
    · have hHeader :=
        List.mem_map_of_mem (f := Definition.header) hMem
      rw [hHeaders] at hHeader
      rcases List.mem_map.mp hHeader with ⟨f, hF, hOpening⟩
      exact .inl
        ⟨f, hF, congrArg String.toList hOpening.symm⟩
    · rcases function_of_call hRead hLower hMem hCall with
        ⟨f, hF, rfl, rfl, hArgs⟩
      exact .inr ⟨f, hF, dest, args, hArgs, rfl⟩
  · have hRows := congrArg (List.map String.toList)
      listing.declaring_rows
    rw [hRecords, List.map_map] at hRows
    rw [hProper.lines_eq, List.filter_map]
    exact hRows
  · rw [← hRecords] at hRanked ⊢
    rw [hProper.lines_eq]
    refine fun r hMem =>
      Listing.defined_once hRanked.names ?_ hMem
    rw [hRecords, hGlobals]
    exact hWorded.scope.records

end

/-
  Definitions and calls match.  A program with a header that
  gets no body is rejected for the first of these; in what
  is compiled, functions have one opening each, every call
  has the types of a definition, and records are defined in
  order.
-/
theorem definitions_match :
    (∀ source p, Program.parse source = .ok p →
      (p.globals.prototypes.map (·.line)).Pairwise (· ≤ ·) ∧
      ((∃ header ∈ p.globals.prototypes,
        ¬ p.Implements header) → ∃ before header after,
          p.globals.prototypes = before ++ header :: after ∧
            (∀ other ∈ before, p.Implements other) ∧
            ¬ p.Implements header ∧
            compile source =
              .error ⟨.unimplemented header.name.name,
                header.line⟩)) ∧
    ∀ source output, compile source = .ok output →
      ∃ p listing,
        Program.parse source = .ok p ∧
          p.lower = .ok listing ∧
          output = listing.text ∧
            p.Matched listing output := by
  constructor
  · intro source p hParse
    rcases exists_read hParse with ⟨s, hRead⟩
    rcases worded_of_read hRead with ⟨hWorded, hGlobals, -⟩
    refine ⟨?_, compile_of_unimplemented hParse⟩
    rw [hGlobals]
    exact hWorded.sorted
  · intro source output hCompile
    rcases compile_eq_ok hCompile with
      ⟨p, listing, hParse, hLower, rfl⟩
    rcases exists_read hParse with ⟨s, hRead⟩
    exact ⟨p, listing, hParse, hLower, rfl,
      matched_of_lower hRead hLower⟩

/-
  A function is called before it is defined, through a
  header with other names, and given a record made of
  records.
-/
def linked : String :=
  "[struct Pair: int x, int y] [struct Line: Pair a, Pair b]
[int f: Line l]; [int g: Line l, int n]
\x7b return [f: l] + n; \x7d [int f: Line k] \x7b return k[b][x]; \x7d"

/- Two headers get no body. -/
def unlinked : String :=
  "[int f]; [int g: int n]; [int h]; [int f] \x7b return 1; \x7d"

theorem linked_match :
    (∃ p, Program.parse unlinked = .ok p ∧
      (∃ header ∈ p.globals.prototypes,
        ¬ p.Implements header) ∧
      ∃ header ∈ p.globals.prototypes,
        ¬ p.Implements header ∧
          compile unlinked =
            .error ⟨.unimplemented header.name.name,
              header.line⟩) ∧
    ∃ output, compile linked = .ok output ∧
      ∃ p listing,
        Program.parse linked = .ok p ∧
          p.lower = .ok listing ∧
          output = listing.text ∧
            p.Matched listing output := by
  constructor
  · have hChecked :
        (Program.parse unlinked).toOption.any (fun p =>
          p.globals.prototypes.any fun q =>
            !q.implemented) = true := by
      decide +kernel
    rcases Step.except_any_eq_true.mp hChecked with
      ⟨p, hParse, hChecked⟩
    rcases List.any_eq_true.mp hChecked with
      ⟨header, hMem, hBare⟩
    have hSome : ∃ header ∈ p.globals.prototypes,
        ¬ p.Implements header := by
      refine ⟨header, hMem, fun hBody => ?_⟩
      rw [(implemented_iff hParse hMem).mpr hBody] at hBare
      cases hBare
    rcases (definitions_match.1 unlinked p hParse).2
      hSome with
      ⟨before, first, after, hHeaders, -, hFirst, hCompile⟩
    refine ⟨p, hParse, hSome, first, ?_, hFirst, hCompile⟩
    rw [hHeaders]
    simp
  · have hChecked :
        (compile linked).toOption.any (fun _ => true) =
          true := by
      decide +kernel
    rcases Step.except_any_eq_true.mp hChecked with
      ⟨output, hCompile, -⟩
    exact ⟨output, hCompile,
      definitions_match.2 linked output hCompile⟩

end Program

end Bracketry
