import Mathlib.Tactic
import ParenGap.Proofs.Command.Run
import ParenGap.Proofs.Fix.Frame
import ParenGap.Proofs.Tree.Tight

/-!
# How a run ends

A run ends with the check of a text, and tells what that check finds.
-/

set_option autoImplicit false

namespace ParenGap

/-! ## The end of a run

A run without `--list-rules` whose configuration and input can be read ends with the check of a
text: the mended text if a fix is asked for, and else the text of the input (`Command.Leaves`). What
the check finds is always reported (`Report.Tells`), and the exit status tells whether there is
anything (`World.run_of_mended`). If the mended text cannot be written, then the run ends before
that check (`World.run_of_refused`).
-/

/-! ### What a report tells -/

/-- The diagnostic is reported at a place of the text with the given lines. -/
def Diagnostic.Placed (d : Diagnostic) (lines : Array Text.Line) (anchor : Region)
    (column : Nat) : Prop :=
  d.anchor? = some anchor ∧ Position.charColumn? lines anchor.span.start = some column

/-- The report tells what is found. For a reader it has the lines on each diagnostic and then those
on each fault; in JSON it has a record for each diagnostic, and the faults are not in it. -/
def Report.Tells (format : Format) (source : Source) (findings : Findings) (report : String) :
    Prop :=
  match format with
  | .human => ∃ texts,
      List.Forall₂ (fun d text => plainDiagnostic? source.file source.lines d = some text)
        findings.diagnostics texts ∧
      report = String.join texts ++ String.join (findings.faults.map plainFault)
  | .json => ∃ records,
      List.Forall₂ (fun d record => ∃ anchor column, d.Placed source.lines anchor column ∧
        record = recordJson d anchor column) findings.diagnostics records ∧
      report = String.ofList ((Json.array records).write 0 ++ ['\n'])

section Reports

variable {source : Source} {policy : Policy} {sites : List Site} {findings : Findings}
  {d : Diagnostic} {lines : Array Text.Line} {options : Options}

/-- What can be shown in terminal columns can be shown in characters. -/
theorem Region.exists_charColumn? {span : Span} {region : Region}
    (h : Region.ofSpan? lines span = some region) :
    ∃ column, Position.charColumn? lines region.span.start = some column := by
  obtain ⟨first, hfirst, h⟩ := Option.bind_eq_some_iff.1 h
  obtain ⟨last, -, rfl⟩ := Option.map_eq_some_iff.1 h
  obtain ⟨place, hplace, -⟩ := Option.map_eq_some_iff.1 hfirst
  exact ⟨place.2.length, by rw [Position.charColumn?, hplace, Option.map_some]⟩

theorem Violation.exists_placed {v : Violation} {file : String}
    (h : v.diagnostic? file lines = some d) : ∃ anchor column, d.Placed lines anchor column := by
  obtain ⟨anchor, hanchor, h⟩ := Option.bind_eq_some_iff.1 h
  obtain ⟨gap, -, rfl⟩ := Option.map_eq_some_iff.1 h
  obtain ⟨column, hcolumn⟩ := Region.exists_charColumn? hanchor
  exact ⟨anchor, column, rfl, hcolumn⟩

/-- Whatever the tree is, a diagnostic of a check has a place. -/
theorem Source.exists_placed_of_checkSites? (h : source.checkSites? policy sites = some findings)
    (hd : d ∈ findings.diagnostics) : ∃ anchor column, d.Placed source.lines anchor column := by
  induction sites generalizing findings with
  | nil =>
      obtain rfl := Option.some.inj h
      cases hd
  | cons site sites ih =>
      rw [checkSites?] at h
      split at h
      · cases h
      · obtain ⟨rest, hrest, rfl⟩ := Option.map_eq_some_iff.1 h
        exact ih hrest hd
      · exact ih h hd
      · obtain ⟨first, hfirst, h⟩ := Option.bind_eq_some_iff.1 h
        obtain ⟨rest, hrest, rfl⟩ := Option.map_eq_some_iff.1 h
        rcases List.mem_cons.1 hd with rfl | hd
        · exact Violation.exists_placed hfirst
        · exact ih hrest hd

/-- Diagnostics that have places all have a record. -/
theorem Report.exists_recordsJson? {diagnostics : List Diagnostic}
    (h : ∀ d ∈ diagnostics, ∃ anchor column, d.Placed lines anchor column) :
    ∃ records, recordsJson? lines diagnostics = some records ∧
      List.Forall₂ (fun d record => ∃ anchor column, d.Placed lines anchor column ∧
        record = recordJson d anchor column) diagnostics records := by
  induction diagnostics with
  | nil => exact ⟨[], rfl, .nil⟩
  | cons d ds ih =>
      obtain ⟨records, hrecords, hall⟩ := ih fun d' hd' => h d' (List.mem_cons_of_mem d hd')
      obtain ⟨anchor, column, hplaced⟩ := h d List.mem_cons_self
      refine ⟨recordJson d anchor column :: records, ?_, .cons ⟨anchor, column, hplaced, rfl⟩ hall⟩
      rw [recordsJson?, hplaced.1]
      simp only [hplaced.2, hrecords, Option.bind_some, Option.map_some]

theorem Report.exists_plainDiagnostic? {file : String} {anchor : Region} {column : Nat}
    (h : d.Placed lines anchor column) : ∃ text, plainDiagnostic? file lines d = some text := by
  unfold plainDiagnostic?
  simp only [h.1, h.2, Option.map_some]
  exact ⟨_, rfl⟩

/-- What a check finds can be reported in either form. -/
theorem Report.exists_tells (options : Options) (h : source.check? policy = some findings) :
    ∃ report, Command.reportText options source findings = .ok report ∧
      Tells options.format source findings report := by
  have hplaced : ∀ d ∈ findings.diagnostics,
      ∃ anchor column, d.Placed source.lines anchor column :=
    fun d hd => Source.exists_placed_of_checkSites? h hd
  unfold Command.reportText Tells
  cases options.format with
  | human =>
      have htexts : ∃ texts, List.Forall₂
          (fun d text => plainDiagnostic? source.file source.lines d = some text)
          findings.diagnostics texts := by
        apply exists_forall₂_of_forall_exists
        intro d hd
        obtain ⟨anchor, column, hd⟩ := hplaced d hd
        exact exists_plainDiagnostic? hd
      obtain ⟨texts, htexts⟩ := htexts
      refine ⟨_, ?_, texts, htexts, rfl⟩
      simp only [plain?, mapM_eq_some_iff.2 htexts, Option.map_some, Command.orOutside]
  | json =>
      obtain ⟨records, hrecords, hall⟩ := exists_recordsJson? hplaced
      refine ⟨_, ?_, records, hall, rfl⟩
      simp only [json?, hrecords, Option.map_some, Command.orOutside]

end Reports

/-- What is written of faults if nothing is reported besides. -/
def Report.ofFaults (format : Format) (faults : List Fault) : String :=
  match format with
  | .human => String.join (faults.map plainFault)
  | .json => "[]\n"

/-- A report on faults alone. -/
theorem Report.Tells.eq_ofFaults {format : Format} {source : Source} {findings : Findings}
    {report : String} (h : Tells format source findings report) (hnil : findings.diagnostics = []) :
    report = ofFaults format findings.faults := by
  unfold Tells at h
  cases format with
  | human =>
      obtain ⟨texts, htexts, rfl⟩ := h
      rw [hnil, List.forall₂_nil_left_iff] at htexts
      simp [htexts, ofFaults]
  | json =>
      obtain ⟨records, hrecords, rfl⟩ := h
      rw [hnil, List.forall₂_nil_left_iff] at hrecords
      rw [hrecords]
      rfl

/-! ### The last check -/

namespace World

open Command

variable {w w' : World} {refusals : Refusals} {parser : Parser} {args : List String}
  {options : Options} {policy : Policy} {code code' : List Char} {source : Source}
  {findings : Findings} {report : String}

/-- A run that cannot write the file that it mends says why, and ends with status `1` whatever the
check of the mended text would find. -/
theorem run_of_refused {error : AccessError} (hargs : Options.ofArguments args = .ok options)
    (hlist : options.listRules = false) (hsettles : w.Settles options policy)
    (hholds : w.Holds options code) (hleaves : Leaves parser options policy code code')
    (hrefused : w.mended refusals options code code' = .error error) :
    w.run refusals parser args = (1, w.warned (Failure.access options.file error).report) := by
  rw [run_of_options hargs, act_execute_of_leaves hlist hsettles hholds hleaves, hrefused]
  rfl

/-- A run without `--list-rules` whose configuration and input can be read, and whose file can be
written if it is mended, ends with the check of the text that is left: what is found is reported,
and the exit status is `0` if nothing is found and `1` if something is. -/
theorem run_of_mended (hargs : Options.ofArguments args = .ok options)
    (hlist : options.listRules = false) (hsettles : w.Settles options policy)
    (hholds : w.Holds options code) (hleaves : Leaves parser options policy code code')
    (hmended : w.mended refusals options code code' = .ok w')
    (hparsed : parseChecked parser options.file code' = .ok source)
    (hcheck : source.check? policy = some findings)
    (hreport : reportText options source findings = .ok report) :
    w.run refusals parser args =
      (if findings.isEmpty then 0 else 1, w'.reported options report) := by
  rw [run_of_options hargs, act_execute_of_leaves hlist hsettles hholds hleaves, hmended]
  simp only [act_checkAndReport, hparsed, hcheck, hreport]

/-- The exit status of a run whose last check reports no diagnostic. -/
theorem run_of_no_diagnostics (hargs : Options.ofArguments args = .ok options)
    (hlist : options.listRules = false) (hsettles : w.Settles options policy)
    (hholds : w.Holds options code) (hleaves : Leaves parser options policy code code')
    (hmended : w.mended refusals options code code' = .ok w')
    (hparsed : parseChecked parser options.file code' = .ok source)
    (hcheck : source.check? policy = some findings) (hnil : findings.diagnostics = []) :
    w.run refusals parser args = (if findings.faults = [] then 0 else 1,
      w'.reported options (Report.ofFaults options.format findings.faults)) := by
  obtain ⟨report, hreport, htells⟩ := Report.exists_tells options hcheck
  rw [run_of_mended hargs hlist hsettles hholds hleaves hmended hparsed hcheck hreport,
    htells.eq_ofFaults hnil, Findings.isEmpty, hnil]
  simp [List.isEmpty_iff]

end World

/-! ## What a run says of what it finds

A run whose text parses ends with status `1` exactly if its last check finds something, and what it
writes tells what has been found, or it ends before that check with the error of a file that it
cannot write (`World.run_reports`). For a reader that is everything: the lines
on each diagnostic and those on each fault. The JSON array has a record for each diagnostic only, so
a run that finds nothing but faults fails with an empty array (`World.run_json_strayWorld`).
-/

namespace World

open Command

variable {w : World} {parser : Parser} {args : List String} {options : Options} {policy : Policy}
  {code : List Char} {tree : Tree}

/-- A run whose text has a well formed tree and no syntax error, and whose mended text has them too
if a fix is asked for, reports what its last check finds. Its status is `0` if that is nothing and
`1` if it is something. If the mended text cannot be written, then the run says why instead, and its
status is `1`. -/
theorem run_reports (refusals : Refusals) (hargs : Options.ofArguments args = .ok options)
    (hlist : options.listRules = false) (hsettles : w.Settles options policy)
    (hholds : w.Holds options code) (hparse : parser code = some tree)
    (hwf : tree.WellFormed code) (herr : tree.hasError = false)
    (hnext : options.fix = true → ∀ fixed,
      fixCode parser options.file policy code = .ok fixed →
        ∃ tree', parser fixed = some tree' ∧ tree'.WellFormed fixed ∧ tree'.hasError = false) :
    ∃ code' source findings report, Leaves parser options policy code code' ∧
      parseChecked parser options.file code' = .ok source ∧
      source.check? policy = some findings ∧
      Report.Tells options.format source findings report ∧
      w.run refusals parser args = match w.mended refusals options code code' with
        | .error error => (1, w.warned (Failure.access options.file error).report)
        | .ok w' => (if findings.diagnostics = [] ∧ findings.faults = [] then 0 else 1,
            w'.reported options report) := by
  -- the text of the last check has a well formed tree, whether it is mended or not
  have hleft : ∃ code' tree', Leaves parser options policy code code' ∧
      parser code' = some tree' ∧ tree'.WellFormed code' ∧ tree'.hasError = false := by
    by_cases hfix : options.fix = true
    · obtain ⟨source, findings, fixed, -, hfixes, -⟩ :=
        exists_fixes options.file policy hparse hwf herr
      obtain ⟨tree', hparse', hwf', herr'⟩ := hnext hfix fixed hfixes.fixed
      refine ⟨fixed, tree', ?_, hparse', hwf', herr'⟩
      rw [Leaves, if_pos hfix]
      exact hfixes.fixed
    · refine ⟨code, tree, ?_, hparse, hwf, herr⟩
      rw [Leaves, if_neg hfix]
  obtain ⟨code', tree', hleaves, hparse', hwf', herr'⟩ := hleft
  obtain ⟨source, -, hparsed, hsource, -⟩ := exists_parseChecked options.file hparse' hwf' herr'
  obtain ⟨findings, hcheck, -⟩ := hsource.exists_check? policy
  obtain ⟨report, hreport, htells⟩ := Report.exists_tells options hcheck
  refine ⟨code', source, findings, report, hleaves, hparsed, hcheck, htells, ?_⟩
  cases hmended : w.mended refusals options code code' with
  | error error => exact run_of_refused hargs hlist hsettles hholds hleaves hmended
  | ok w' =>
      rw [run_of_mended hargs hlist hsettles hholds hleaves hmended hparsed hcheck hreport]
      simp [Findings.isEmpty, List.isEmpty_iff]

/-! ### A fault alone -/

/-- The text of a call with the zero-width space U+200B before its parenthesis. A parser may skip
that character, but it is not white space. -/
def strayCode : List Char := ['f', '\u200b', '(', ')']

/-- The tree of that call. -/
def strayTree : Tree where
  root := ⟨"program", ⟨0, 6⟩, true, false, none,
    [⟨"expression_statement", ⟨0, 6⟩, true, false, none,
      [⟨"call_expression", ⟨0, 6⟩, true, false, none,
        [⟨"identifier", ⟨0, 1⟩, true, false, some .function, []⟩,
        ⟨"arguments", ⟨4, 6⟩, true, false, some .arguments,
          [.mark "(" 4, .mark ")" 5]⟩]⟩]⟩]⟩
  hasError := false

/-- A parser that knows that call. -/
def strayParser : Parser := fun code => if code = strayCode then some strayTree else none

/-- A world with the file `a.js`, which holds that call. -/
def strayWorld : World where
  files := [("a.js", (String.ofList strayCode).toUTF8)]
  input := ByteArray.empty

theorem holds_strayWorld {options : Options} (hfile : options.file = "a.js") :
    strayWorld.Holds options strayCode := by
  have hleads : strayWorld.LeadsTo "a.js" "a.js" := by
    rw [LeadsTo]
    decide
  refine ⟨_, String.ofList strayCode, ?_, decodeUtf8_toUTF8 _, by decide⟩
  rw [if_neg (by rw [Options.isStdin, hfile]; decide), hfile, read_eq_of_leadsTo hleads]
  rfl

/-- The check of that call finds a fault and no diagnostic. -/
theorem check?_strayCode {source : Source}
    (h : parseChecked strayParser "a.js" strayCode = .ok source) :
    source.check? .never = some ⟨[], [.strayText 1 4]⟩ := by
  have hcheck : (parseChecked strayParser "a.js" strayCode).toOption.bind
      (fun source => source.check? .never) = some ⟨[], [.strayText 1 4]⟩ := by
    decide +kernel
  rw [h] at hcheck
  exact hcheck

/-- In the form for a reader the fault is written to standard error. -/
theorem run_reports_strayWorld :
    strayTree.WellFormed strayCode ∧ strayWorld.run noRefusals strayParser ["a.js"] =
      (1, strayWorld.warned (Report.plainFault (.strayText 1 4))) := by
  have hwf : strayTree.WellFormed strayCode := by decide
  refine ⟨hwf, ?_⟩
  have hargs : Options.ofArguments ["a.js"] = .ok { file := "a.js" } := by decide
  have hsettles : strayWorld.Settles { file := "a.js" } .never := rfl
  have hholds : strayWorld.Holds { file := "a.js" } strayCode := holds_strayWorld rfl
  have hparse : strayParser strayCode = some strayTree := if_pos rfl
  obtain ⟨code', source, findings, report, hleaves, hparsed, hcheck, htells, hrun⟩ :=
    run_reports noRefusals hargs rfl hsettles hholds hparse hwf rfl fun hfix => by cases hfix
  obtain rfl : code' = strayCode := hleaves
  rw [check?_strayCode hparsed, Option.some.injEq] at hcheck
  subst hcheck
  have hmended : strayWorld.mended noRefusals { file := "a.js" } strayCode strayCode =
      .ok strayWorld := rfl
  rw [hrun, hmended, htells.eq_ofFaults rfl]
  simp [Report.ofFaults, reported, reportsToOutput]

/-- In JSON it is written nowhere: the run fails and does not say why. -/
theorem run_json_strayWorld :
    (∃ source, parseChecked strayParser "a.js" strayCode = .ok source ∧
      source.check? .never = some ⟨[], [.strayText 1 4]⟩) ∧
    strayWorld.run noRefusals strayParser ["--format", "json", "a.js"] =
      (1, strayWorld.printed "[]\n") := by
  have hargs : Options.ofArguments ["--format", "json", "a.js"] =
      .ok { file := "a.js", format := .json } := by
    decide
  have hsettles : strayWorld.Settles { file := "a.js", format := .json } .never := rfl
  have hholds : strayWorld.Holds { file := "a.js", format := .json } strayCode :=
    holds_strayWorld rfl
  have hwf : strayTree.WellFormed strayCode := by decide
  have hparse : strayParser strayCode = some strayTree := if_pos rfl
  obtain ⟨source, -, hparsed, -⟩ := exists_parseChecked "a.js" hparse hwf rfl
  have hcheck := check?_strayCode hparsed
  refine ⟨⟨source, hparsed, hcheck⟩, ?_⟩
  rw [run_of_no_diagnostics hargs rfl hsettles hholds rfl rfl hparsed hcheck rfl]
  simp [Report.ofFaults, reported, reportsToOutput]

end World

end ParenGap
