import Mathlib.Tactic
import ParenGap.Proofs.Command.Files
import ParenGap.Proofs.Command.Outcome
import ParenGap.Proofs.Fix.Edits
import ParenGap.Proofs.Fix.Sequence
import ParenGap.Proofs.Json.Parens
import ParenGap.Proofs.Text.Slice

/-!
# Running a fix again

A run with `--fix` leaves a text of which nothing is reported any longer (`Sees.final`), and the
next run starts from that very text under the same policy: the mended text has no white space at its
end, because the text had none, and the configuration is what it was, even if it is the input file
itself (`World.Settles.mended`). So a second run changes nothing and ends with the same status
(`World.run_fix_twice`).

The first run has to be able to write its file. If it is not, then it ends with status `1` even if
there is no fault, and a run that only tells its version ends with status `0` even if there is one
(`World.run_fix_status_exceptions`).
-/

set_option autoImplicit false

namespace ParenGap

open Text

namespace Command

variable {parser : Parser} {file : String} {policy : Policy} {code fixed : List Char}
  {source : Source} {findings : Findings}

/-- The fix of a text is final: if the parser gives the moved tree for the mended text, nothing is
reported of it, its fix is the text itself, and there are as many faults as before. -/
theorem Sees.final (h : Sees parser file code source)
    (hfixes : Fixes parser file policy code source findings fixed)
    (hparse : parser fixed = some (source.tree.moved findings.patch)) :
    ∃ source' findings', Fixes parser file policy fixed source' findings' fixed ∧
      findings'.diagnostics = [] ∧ findings'.faults.length = findings.faults.length := by
  have hsource := h.regular.consistent
  obtain ⟨_, _, hfixes', hreports, hout⟩ := h.exists_fixes policy
  obtain ⟨-, rfl, rfl⟩ := hfixes.unique hfixes'
  obtain ⟨source', hsees', hmoves⟩ := h.next (hreports.respacing hsource) hout hparse
  obtain ⟨findings', out', hfixes', hreports', hout'⟩ := hsees'.exists_fixes policy
  have hstream : source.tokens = TokenStream.ofList source.tokens.tokens.toList :=
    (TokenStream.ofList_toList _).symm
  have hsettled := fun {site : Site} (hsite : site ∈ source.tree.sites) =>
    hreports.settled hsource hstream hmoves.respaced hsite
  -- a violation that is left would be one of a moved site
  have hnone : findings'.diagnostics = [] := by
    rw [hreports'.diagnostics_eq_nil_iff]
    apply List.eq_nil_iff_forall_not_mem.2
    intro v hv
    obtain ⟨site', hsite', hv⟩ := hsees'.regular.consistent.mem_violationsAt_iff.1 hv
    obtain ⟨site, hsite, rfl⟩ := List.mem_map.1 (hmoves.perm_sites.mem_iff.1 hsite')
    rw [← Site.check?_eq_violation_iff hmoves.liesIn, hmoves.tokens_eq] at hv
    exact (hsettled hsite).1 v hv
  obtain rfl : out' = source'.code :=
    (hreports'.eq_code_iff hsees'.regular.consistent hout').2 hnone
  refine ⟨source', findings', hsees'.code_eq ▸ hfixes', hnone, ?_⟩
  rw [hreports'.faults_eq, hreports.faults_eq, Source.length_faultsAt, Source.length_faultsAt,
    hmoves.perm_sites.countP_eq, List.countP_map]
  apply List.countP_congr
  intro site hsite
  rw [Function.comp_apply, Source.isSome_fault?_iff, Source.isSome_fault?_iff, hmoves.tokens_eq]
  exact (hsettled hsite).2

/-- A mended text does not end with white space if the text does not. -/
theorem Sees.trimmed (h : Sees parser file code source)
    (hfixes : Fixes parser file policy code source findings fixed) (htrimmed : Trimmed code) :
    Trimmed fixed := by
  obtain ⟨_, _, hfixes', hreports, hout⟩ := h.exists_fixes policy
  obtain ⟨-, rfl, rfl⟩ := hfixes.unique hfixes'
  intro c hc
  rw [hreports.getLast?_eq h.regular.consistent hout, h.code_eq] at hc
  exact htrimmed c hc

/-- A text that its fix changes has an opening parenthesis. -/
theorem Sees.paren_mem (h : Sees parser file code source)
    (hfixes : Fixes parser file policy code source findings fixed) (hne : fixed ≠ code) :
    '(' ∈ code := by
  obtain ⟨_, _, hfixes', hreports, -⟩ := h.exists_fixes policy
  obtain ⟨-, rfl, -⟩ := hfixes.unique hfixes'
  rw [← h.code_eq]
  exact hreports.paren_mem h.regular.consistent (hfixes.diagnostics_ne_nil hne)

end Command

namespace World

open Command

variable {w w' : World} {refusals : Refusals} {parser : Parser} {args : List String}
  {options : Options} {policy : Policy} {code code' : List Char} {name : String}
  {content : ByteArray}

theorem Settles.of_files (h : w.Settles options policy) (hfiles : w'.files = w.files) :
    w'.Settles options policy := by
  unfold Settles at h ⊢
  cases hconfig : options.config with
  | none =>
      rw [hconfig] at h
      exact h
  | some path =>
      rw [hconfig] at h
      simpa only [read_congr hfiles path] using h

/-- A configuration is not changed by a write to the input file, even if it is the input file: a
text with a parenthesis is no configuration. -/
theorem Settles.put (h : w.Settles options policy) (hholds : w.Holds options code)
    (hstdin : options.isStdin = false) (hname : w.LeadsTo options.file name)
    (hparen : '(' ∈ code) : (w.put name content).Settles options policy := by
  unfold Settles at h ⊢
  cases hconfig : options.config with
  | none =>
      rw [hconfig] at h
      exact h
  | some path =>
      rw [hconfig] at h
      obtain ⟨bytes, text, config, hread, htext, hread', rfl⟩ := h
      refine ⟨bytes, text, config, ?_, htext, hread', rfl⟩
      rw [read_put_of_not_leadsTo ?_]
      · exact hread
      · -- otherwise the configuration would be the text of the input, which has a parenthesis
        intro hpath
        obtain ⟨bytes', text', hread'', htext', rfl⟩ := hholds
        rw [hstdin, if_neg Bool.false_ne_true, read_eq_of_leadsTo hname,
          ← read_eq_of_leadsTo hpath, hread, Except.ok.injEq] at hread''
        subst hread''
        obtain rfl : text = text' := Except.ok.inj (htext.symm.trans htext')
        obtain ⟨blanks, hsplit, -⟩ := exists_blanks text.toList
        apply Config.not_mem_of_read hread'
        rw [hsplit]
        exact List.mem_append_left _ hparen

/-- After a fix the policy of a run is the same. -/
theorem Settles.mended (h : w.Settles options policy) (hholds : w.Holds options code)
    (hparen : code' ≠ code → '(' ∈ code)
    (hmended : w.mended refusals options code code' = .ok w') : w'.Settles options policy := by
  rcases mended_cases hmended with ⟨hfiles, -⟩ | ⟨name, -, hstdin, hne, hname, -, rfl⟩
  · exact h.of_files hfiles
  · exact h.put hholds (by simpa using hstdin) hname (hparen hne)

theorem Holds.trimmed (h : w.Holds options code) : Trimmed code := by
  obtain ⟨bytes, text, -, -, rfl⟩ := h
  exact trimmed_trimEnd text.toList

/-- An input file can be read in each world with the same files. -/
theorem Holds.of_files (h : w.Holds options code) (hstdin : options.isStdin = false)
    (hfiles : w'.files = w.files) : w'.Holds options code := by
  unfold Holds at h ⊢
  simpa only [hstdin, Bool.false_eq_true, if_false, read_congr hfiles options.file] using h

/-- Standard input holds a text that it is given in UTF-8. -/
theorem holds_of_input (hstdin : options.isStdin = true)
    (hinput : w.input = (String.ofList code).toUTF8) (htrimmed : Trimmed code) :
    w.Holds options code := by
  refine ⟨w.input, String.ofList code, ?_, ?_, ?_⟩
  · rw [if_pos hstdin]
  · rw [hinput]
    exact decodeUtf8_toUTF8 _
  · rw [String.toList_ofList]
    exact htrimmed.trimEnd_eq

/-- After a fix the input file holds the mended text. -/
theorem Holds.mended (h : w.Holds options code) (hfix : options.fix = true)
    (hstdin : options.isStdin = false) (htrimmed : Trimmed code')
    (hmended : w.mended refusals options code code' = .ok w') : w'.Holds options code' := by
  rcases mended_cases hmended with ⟨hfiles, hsame⟩ | ⟨name, -, -, -, hname, -, rfl⟩
  · obtain rfl := hsame hfix (by simp [hstdin])
    exact h.of_files hstdin hfiles
  · refine ⟨_, String.ofList code', ?_, decodeUtf8_toUTF8 _, ?_⟩
    · rw [hstdin, if_neg Bool.false_ne_true]
      exact read_put_self hname
    · rw [String.toList_ofList]
      exact htrimmed.trimEnd_eq

/-- The mended text of standard input is all that goes to standard output, since the report then
goes to standard error. -/
theorem output_of_stdin (hfix : options.fix = true) (hstdin : options.isStdin = true)
    (hmended : w.mended refusals options code code' = .ok w') (report : String) :
    (w'.reported options report).output = w.output ++ String.ofList code' := by
  rw [mended, if_pos hfix, if_pos hstdin, Except.ok.injEq] at hmended
  rw [← hmended, reported, reportsToOutput, hfix, hstdin]
  simp

/-- A run with `--fix` on a text with a well formed, tight tree, whose file can be written if the
fix changes it, reports no diagnostic and ends with status `0` exactly if the check of the text
finds no fault, provided that the parser gives the moved tree for the mended text. A second run,
which need not be able to write, then leaves all files as they are, and on standard input, fed with
what the first one has written to standard output, it writes the same text again. A run without
`--fix` ends with the same status. -/
theorem run_fix_twice {tree : Tree} (hargs : Options.ofArguments args = .ok options)
    (hfix : options.fix = true) (hlist : options.listRules = false)
    (hsettles : w.Settles options policy) (hholds : w.Holds options code)
    (hparse : parser code = some tree) (hwf : tree.WellFormed code) (htight : tree.Tight)
    (herr : tree.hasError = false)
    (hnext : ∀ source findings fixed,
      Fixes parser options.file policy code source findings fixed →
        parser fixed = some (tree.moved findings.patch))
    (hwrite : options.isStdin = false → ∀ fixed,
      fixCode parser options.file policy code = .ok fixed → fixed ≠ code →
        w.Writable refusals options.file) :
    ∃ source findings fixed source' findings' mended,
      Fixes parser options.file policy code source findings fixed ∧
      Fixes parser options.file policy fixed source' findings' fixed ∧
      findings'.diagnostics = [] ∧
      w.mended refusals options code fixed = .ok mended ∧
      w.run refusals parser args = (if findings.faults = [] then 0 else 1,
        mended.reported options (Report.ofFaults options.format findings'.faults)) ∧
      (options.isStdin = true →
        (w.run refusals parser args).2.output = w.output ++ String.ofList fixed) ∧
      ∀ (w' : World) refusals', w'.files = (w.run refusals parser args).2.files →
        (options.isStdin = true → w'.input = (String.ofList fixed).toUTF8) →
          (w'.run refusals' parser args).2.files = w'.files ∧
          (options.isStdin = true →
            (w'.run refusals' parser args).2.output = w'.output ++ String.ofList fixed) ∧
          ∀ args', Options.ofArguments args' = .ok { options with fix := false } →
            (w'.run refusals' parser args').1 = (w.run refusals parser args).1 := by
  obtain ⟨source, hsees, rfl⟩ := exists_sees options.file hparse hwf htight herr
  obtain ⟨findings, fixed, hfixes, -, -⟩ := hsees.exists_fixes policy
  obtain ⟨source', findings', hfixes', hnil, hlength⟩ :=
    hsees.final hfixes (hnext source findings fixed hfixes)
  have hfaults : findings'.faults = [] ↔ findings.faults = [] := by
    rw [← List.length_eq_zero_iff, hlength, List.length_eq_zero_iff]
  have htrimmed : Trimmed fixed := hsees.trimmed hfixes hholds.trimmed
  -- the first run checks the mended text
  have hleaves : Leaves parser options policy code fixed := by
    rw [Leaves, if_pos hfix]
    exact hfixes.fixed
  obtain ⟨mended, hmended⟩ :=
    hholds.exists_mended fun hstdin => hwrite hstdin fixed hfixes.fixed
  have hrun := run_of_no_diagnostics hargs hlist hsettles hholds hleaves hmended hfixes'.parsed
    hfixes'.checked hnil
  simp only [hfaults] at hrun
  refine ⟨source, findings, fixed, source', findings', mended, hfixes, hfixes', hnil, hmended,
    hrun, ?_, ?_⟩
  · intro hstdin
    rw [hrun]
    exact output_of_stdin hfix hstdin hmended _
  · intro w' refusals' hfiles hinput
    rw [hrun, reported_files] at hfiles
    -- the second run finds the mended text and the same policy
    have hsettles' : w'.Settles options policy :=
      (hsettles.mended hholds (hsees.paren_mem hfixes) hmended).of_files hfiles
    have hholds' : w'.Holds options fixed := by
      cases hstdin : options.isStdin with
      | true => exact holds_of_input hstdin (hinput hstdin) htrimmed
      | false => exact (hholds.mended hfix hstdin htrimmed hmended).of_files hstdin hfiles
    have hleaves' : Leaves parser options policy fixed fixed := by
      rw [Leaves, if_pos hfix]
      exact hfixes'.fixed
    obtain ⟨mended', hmended', hfiles'⟩ := exists_mended_self w' refusals' options fixed
    have hrun' := run_of_no_diagnostics hargs hlist hsettles' hholds' hleaves' hmended'
      hfixes'.parsed hfixes'.checked hnil
    refine ⟨?_, ?_, ?_⟩
    · rw [hrun', reported_files]
      exact hfiles'
    · intro hstdin
      rw [hrun']
      exact output_of_stdin hfix hstdin hmended' _
    · intro args' hargs'
      rw [run_of_no_diagnostics hargs' hlist hsettles' hholds' rfl rfl hfixes'.parsed
        hfixes'.checked hnil, hrun]
      simp only [hfaults]

/-- A second run on `(f) (0)` changes nothing. -/
theorem run_fix_twice_groupedWorld :
    groupedTree.WellFormed Site.groupedCode ∧ groupedTree.Tight ∧
      ∃ w : World, w.files = (groupedWorld.run noRefusals groupedParser ["--fix", "a.js"]).2.files ∧
        (w.run noRefusals groupedParser ["--fix", "a.js"]).2.files = w.files ∧
        (w.run noRefusals groupedParser ["a.js"]).1 =
          (groupedWorld.run noRefusals groupedParser ["--fix", "a.js"]).1 := by
  have hwf : groupedTree.WellFormed Site.groupedCode := by decide
  have htight : groupedTree.Tight := by decide
  have hargs : Options.ofArguments ["--fix", "a.js"] = .ok { file := "a.js", fix := true } := by
    decide
  have hargs' : Options.ofArguments ["a.js"] = .ok { file := "a.js" } := by decide
  obtain ⟨source, findings, hfixes, hpatch⟩ := fixes_groupedCode
  have hnext : ∀ source' findings' fixed,
      Fixes groupedParser "a.js" .never Site.groupedCode source' findings' fixed →
        groupedParser fixed = some (groupedTree.moved findings'.patch) := by
    intro source' findings' fixed hfixes'
    obtain ⟨rfl, rfl, rfl⟩ := hfixes.unique hfixes'
    rw [hpatch]
    rfl
  have hsettles : groupedWorld.Settles { file := "a.js", fix := true } .never := rfl
  have hholds : groupedWorld.Holds { file := "a.js", fix := true } Site.groupedCode :=
    holds_groupedWorld rfl
  have htwice := run_fix_twice hargs rfl rfl hsettles hholds groupedParser_groupedCode hwf htight
    rfl hnext fun _ _ _ _ name _ => (rfl : noRefusals name = none)
  obtain ⟨_, _, _, _, _, _, -, -, -, -, -, -, hagain⟩ := htwice
  refine ⟨hwf, htight, (groupedWorld.run noRefusals groupedParser ["--fix", "a.js"]).2, rfl, ?_⟩
  have hstdin : ({ file := "a.js", fix := true } : Options).isStdin = true → False := by decide
  obtain ⟨hfiles, -, hstatus⟩ := hagain _ noRefusals rfl fun h => (hstdin h).elim
  exact ⟨hfiles, hstatus ["a.js"] hargs'⟩

/-! ## A status that tells nothing of faults -/

/-- The check of `(f) (0)` finds no fault. -/
theorem faults_groupedCode {source : Source} {findings : Findings}
    (hparsed : parseChecked groupedParser "a.js" Site.groupedCode = .ok source)
    (hcheck : source.check? .never = some findings) : findings.faults = [] := by
  have hfaults : ((parseChecked groupedParser "a.js" Site.groupedCode).toOption.bind
      fun source => (source.check? .never).map Findings.faults) = some [] := by
    decide +kernel
  rw [hparsed, Except.toOption, Option.bind_some, hcheck, Option.map_some,
    Option.some.injEq] at hfaults
  exact hfaults

/-- The fix of the call with the zero-width space leaves it as it is, with its fault. -/
theorem fixes_strayCode : ∃ source, Fixes strayParser "a.js" .never strayCode source
    ⟨[], [.strayText 1 4]⟩ strayCode := by
  have hparse : strayParser strayCode = some strayTree := if_pos rfl
  obtain ⟨source, -, hparsed, -⟩ := exists_parseChecked "a.js" hparse (by decide) rfl
  have hcheck := check?_strayCode hparsed
  have hfixed := Source.fixed?_of_diagnostics_eq_nil hcheck rfl
  refine ⟨source, hparsed, hcheck, ?_⟩
  rw [fixCode, hparsed, Except.bind, hfixed, code_eq_of_parseChecked hparsed]
  rfl

/-- The status of a run with `--fix` does not tell of faults if the run cannot write its file, nor
if it is asked for its version: `(f) (0)` has no fault, but the run fails if `a.js` is read-only,
and the call with the zero-width space has one, but with `--version` the run succeeds. -/
theorem run_fix_status_exceptions :
    (groupedTree.WellFormed Site.groupedCode ∧ groupedTree.Tight ∧
      groupedWorld.Holds { file := "a.js", fix := true } Site.groupedCode ∧
      ∃ source findings fixed,
        Fixes groupedParser "a.js" .never Site.groupedCode source findings fixed ∧
        groupedParser fixed = some (groupedTree.moved findings.patch) ∧ findings.faults = [] ∧
        groupedWorld.run (fun _ => some .permissionDenied) groupedParser ["--fix", "a.js"] =
          (1, groupedWorld.warned
            "Error: Cannot access a.js: Permission denied (os error 13)\n")) ∧
    strayTree.WellFormed strayCode ∧ strayTree.Tight ∧
      strayWorld.Holds { file := "a.js", fix := true } strayCode ∧
      ∃ source findings,
        Fixes strayParser "a.js" .never strayCode source findings strayCode ∧
        strayParser strayCode = some (strayTree.moved findings.patch) ∧ findings.faults ≠ [] ∧
        strayWorld.run noRefusals strayParser ["--fix", "--version", "a.js"] =
          (0, strayWorld.printed versionText) := by
  constructor
  · obtain ⟨source, findings, hfixes, hpatch⟩ := fixes_groupedCode
    have hholds : groupedWorld.Holds { file := "a.js", fix := true } Site.groupedCode :=
      holds_groupedWorld rfl
    refine ⟨by decide, by decide, hholds, source, findings, _, hfixes, ?_,
      faults_groupedCode hfixes.parsed hfixes.checked, ?_⟩
    · rw [hpatch]
      rfl
    · -- the fix itself succeeds, so that the run gets as far as the write
      have hargs : Options.ofArguments ["--fix", "a.js"] = .ok { file := "a.js", fix := true } := by
        decide
      have hsettles : groupedWorld.Settles { file := "a.js", fix := true } .never := rfl
      have hleaves : Leaves groupedParser { file := "a.js", fix := true } .never Site.groupedCode
          ['(', 'f', ')', '(', '0', ')'] := hfixes.fixed
      have hrefused : groupedWorld.mended (fun _ => some .permissionDenied)
          { file := "a.js", fix := true } Site.groupedCode ['(', 'f', ')', '(', '0', ')'] =
            .error .permissionDenied :=
        mended_of_leadsTo rfl (by decide) leadsTo_groupedWorld (by decide)
      exact run_of_refused hargs rfl hsettles hholds hleaves hrefused
  · obtain ⟨source, hfixes⟩ := fixes_strayCode
    have hpatch : (⟨[], [.strayText 1 4]⟩ : Findings).patch = ⟨[]⟩ := by decide +kernel
    refine ⟨by decide, by decide, holds_strayWorld rfl, source, _, hfixes, ?_, by decide, rfl⟩
    rw [hpatch]
    rfl

end World

end ParenGap
