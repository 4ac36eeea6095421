import Mathlib.Tactic
import ParenGap.Proofs.Command.Files
import ParenGap.Proofs.Fix.Edits
import ParenGap.Proofs.Text.Slice

/-!
# What a fix keeps of a file

A fix puts the spacing of the policy into the reported gaps of a text and keeps all that stands
before, between and after them, in the same order (`Regapped`, `Command.exists_regapped`).

The text is what the file holds without the white space at its end. A run that mends a file writes
the mended text and nothing after it, so that the white space at the end of the file is lost
(`World.run_fix_keeps`): a file that ends with a new line no longer does
(`World.run_fix_linedWorld`). A run that finds nothing to mend, or that cannot write the file,
leaves it where it is.
-/

set_option autoImplicit false

namespace ParenGap

open Text

/-- The second text is the first one, which starts at the offset `n`, with `spacing` in the place of
each of the gaps. The gaps are white space and come in order; what stands before, between and after
them is the same in both texts. -/
inductive Regapped (spacing : List Char) : Nat → List Span → List Char → List Char → Prop
  | rest (n : Nat) (kept : List Char) : Regapped spacing n [] kept kept
  | gap {n : Nat} {gap : Span} {gaps : List Span} {kept blank code out : List Char}
      (start_eq : gap.start = n + byteLength kept)
      (stop_eq : gap.stop = gap.start + byteLength blank)
      (isBlank_of_mem : ∀ c ∈ blank, isBlank c = true)
      (next : Regapped spacing gap.stop gaps code out) :
      Regapped spacing n (gap :: gaps) (kept ++ (blank ++ code)) (kept ++ (spacing ++ out))

section Regapping

variable {spacing code code' out out' t : List Char} {m n : Nat} {gaps gaps' : List Span}
  {es : List Edit}

/-- The second text is as long as the first one with the gaps taken out and the spacing put in. -/
theorem Regapped.byteLength_add (h : Regapped spacing n gaps code out) :
    byteLength out + (gaps.map Span.length).sum =
      byteLength code + gaps.length * byteLength spacing := by
  induction h with
  | rest n kept => simp
  | gap start_eq stop_eq _ _ ih =>
      simp only [byteLength_append, List.map_cons, List.sum_cons, List.length_cons, Span.length,
        Nat.add_mul, Nat.one_mul]
      omega

/-- Two texts that are regapped at the same gaps grow or shrink by as much. -/
theorem Regapped.byteLength_add_comm (h : Regapped spacing n gaps code out)
    (h' : Regapped spacing m gaps' code' out') (hperm : gaps.Perm gaps') :
    byteLength out + byteLength code' = byteLength out' + byteLength code := by
  have hadd := h.byteLength_add
  have hadd' := h'.byteLength_add
  rw [← hperm.length_eq, ← (hperm.map Span.length).sum_eq] at hadd'
  omega

/-- Edits that put the same spacing into gaps of white space regap the stretch that they are applied
to. -/
theorem regapped_of_splice? (h : Patch.splice? code m n es = some out)
    (ht : slice? code m n = some t) (hspacing : ∀ e ∈ es, e.replacement = spacing)
    (hle : ∀ e ∈ es, e.span.start ≤ e.span.stop)
    (hblank : ∀ e ∈ es, ∃ blank, slice? code e.span.start e.span.stop = some blank ∧
      ∀ c ∈ blank, isBlank c = true) :
    Regapped spacing m (es.map Edit.span) t out := by
  induction es generalizing m t out with
  | nil =>
      rw [Patch.splice?, ht, Option.some.injEq] at h
      rw [← h]
      exact .rest m t
  | cons e es ih =>
      rw [List.forall_mem_cons] at hspacing hle hblank
      obtain ⟨blank, hslice, hblank'⟩ := hblank.1
      obtain ⟨kept, tail, rest, hkept, htail, hrest, rfl, rfl⟩ :=
        Patch.exists_parts_of_splice?_cons h ht hslice hle.2
      rw [hspacing.1]
      exact .gap (add_byteLength_of_slice? hkept).symm (add_byteLength_of_slice? hslice).symm
        hblank' (ih hrest htail hspacing.2 hle.2 hblank.2)

end Regapping

namespace Source

variable {source : Source} {policy : Policy} {sites : List Site} {findings : Findings}
  {out : List Char}

/-- The patch of a check regaps the text. -/
theorem Reports.regapped (h : source.Reports policy sites findings) (hsource : source.Consistent)
    (hout : findings.patch.applied? source.code = some out) :
    Regapped (Gap.spacing policy) 0 (findings.patch.edits.map Edit.span) source.code out := by
  have hrespacing := h.respacing hsource
  rw [Patch.applied?_eq_splice?] at hout
  refine regapped_of_splice? hout (slice?_zero_byteLength source.code) ?_
    hrespacing.inOrder.start_le_stop ?_
  · exact fun e he => h.replacement_eq hsource (Patch.mem_of_mem_ofList he)
  · intro e he
    obtain ⟨b, t, u, text, -, -, hspan, htext, hblank, -⟩ := hrespacing.gaps e he
    exact ⟨text, by rw [hspan]; exact htext, hblank⟩

end Source

namespace Command

variable {parser : Parser} {code : List Char} {tree : Tree}

/-- The fix of a text with a well formed tree and no syntax error regaps it at the reported gaps,
changes it exactly if something is reported, and leaves it trimmed if it was. -/
theorem exists_regapped (file : String) (policy : Policy) (hparse : parser code = some tree)
    (hwf : tree.WellFormed code) (herr : tree.hasError = false) :
    ∃ source findings fixed gaps, Fixes parser file policy code source findings fixed ∧
      gaps.Perm findings.gaps.dedup ∧ Regapped (Gap.spacing policy) 0 gaps code fixed ∧
      (fixed = code ↔ findings.diagnostics = []) ∧ (Trimmed code → Trimmed fixed) := by
  obtain ⟨source, findings, fixed, tokens, hfixes, hsource, hreports, rfl, -, hout, -, -⟩ :=
    exists_fixes file policy hparse hwf herr
  refine ⟨source, findings, fixed, _, hfixes, hreports.perm_dedup_gaps hsource,
    hreports.regapped hsource hout, hreports.eq_code_iff hsource hout, fun htrimmed c hc => ?_⟩
  rw [hreports.getLast?_eq hsource hout] at hc
  exact htrimmed c hc

end Command

namespace World

open Command

variable {w : World} {refusals : Refusals} {parser : Parser} {args : List String}
  {options : Options} {policy : Policy} {name : String} {code fixed : List Char} {source : Source}
  {findings : Findings}

/-- A run that mends a file puts the mended text into it, unless the text is as it was or the file
cannot be written. -/
theorem run_files_of_fixes (refusals : Refusals) (hargs : Options.ofArguments args = .ok options)
    (hfix : options.fix = true) (hlist : options.listRules = false)
    (hstdin : options.isStdin = false) (hsettles : w.Settles options policy)
    (hholds : w.Holds options code) (hname : w.LeadsTo options.file name)
    (hfixes : Fixes parser options.file policy code source findings fixed) :
    (fixed = code ∨ refusals name ≠ none → (w.run refusals parser args).2.files = w.files) ∧
      (fixed ≠ code → refusals name = none →
        (w.run refusals parser args).2.files =
          (w.put name (String.ofList fixed).toUTF8).files) := by
  have hleaves : Leaves parser options policy code fixed := by
    rw [Leaves, if_pos hfix]
    exact hfixes.fixed
  rw [run_files_of_options hargs, act_execute_files_of_leaves hlist hsettles hholds hleaves]
  by_cases hsame : fixed = code
  · subst hsame
    obtain ⟨w', hmended, hfiles⟩ := exists_mended_self w refusals options fixed
    rw [hmended]
    exact ⟨fun _ => hfiles, fun hne => absurd rfl hne⟩
  · rw [mended_of_leadsTo hfix (by simp [hstdin]) hname hsame]
    cases hrefusal : refusals name with
    | some error => simp
    | none => simp [hsame]

/-- A run with `--fix` on a file with a well formed tree and no syntax error leaves all files as
they are if nothing is reported or the file cannot be written. Otherwise the file holds its text
with the spacing of the policy in the place of the reported gaps, all else of the text in the same
order, and nothing of the white space that stood at its end. -/
theorem run_fix_keeps {tree : Tree} {text : String} (refusals : Refusals)
    (hargs : Options.ofArguments args = .ok options) (hfix : options.fix = true)
    (hlist : options.listRules = false) (hstdin : options.isStdin = false)
    (hsettles : w.Settles options policy) (hname : w.LeadsTo options.file name)
    (hread : w.read options.file = .ok text.toUTF8)
    (hparse : parser (trimEnd text.toList) = some tree)
    (hwf : tree.WellFormed (trimEnd text.toList)) (herr : tree.hasError = false) :
    ∃ blanks source findings fixed gaps,
      text.toList = trimEnd text.toList ++ blanks ∧ (∀ c ∈ blanks, isBlank c = true) ∧
      Fixes parser options.file policy (trimEnd text.toList) source findings fixed ∧
      gaps.Perm findings.gaps.dedup ∧
      Regapped (Gap.spacing policy) 0 gaps (trimEnd text.toList) fixed ∧ Trimmed fixed ∧
      (findings.diagnostics = [] ∨ refusals name ≠ none →
        (w.run refusals parser args).2.files = w.files) ∧
      (findings.diagnostics ≠ [] → refusals name = none →
        (w.run refusals parser args).2.files =
          (w.put name (String.ofList fixed).toUTF8).files) := by
  have hholds : w.Holds options (trimEnd text.toList) := by
    refine ⟨text.toUTF8, text, ?_, decodeUtf8_toUTF8 text, rfl⟩
    rw [hstdin, if_neg Bool.false_ne_true]
    exact hread
  obtain ⟨blanks, hsplit, hblanks⟩ := exists_blanks text.toList
  obtain ⟨source, findings, fixed, gaps, hfixes, hgaps, hregapped, heq, htrimmed⟩ :=
    exists_regapped options.file policy hparse hwf herr
  have hfiles :=
    run_files_of_fixes refusals hargs hfix hlist hstdin hsettles hholds hname hfixes
  simp only [ne_eq, heq] at hfiles
  exact ⟨blanks, source, findings, fixed, gaps, hsplit, hblanks, hfixes, hgaps, hregapped,
    htrimmed (trimmed_trimEnd text.toList), hfiles⟩

/-- A world with the file `a.js`, which holds `(f) (0)` and a new line. -/
def linedWorld : World where
  files := [("a.js", (String.ofList (Site.groupedCode ++ ['\n'])).toUTF8)]
  input := ByteArray.empty

theorem leadsTo_linedWorld : linedWorld.LeadsTo "a.js" "a.js" := by
  rw [LeadsTo]
  decide

theorem read_linedWorld :
    linedWorld.read "a.js" = .ok (String.ofList (Site.groupedCode ++ ['\n'])).toUTF8 := by
  rw [read_eq_of_leadsTo leadsTo_linedWorld]
  rfl

theorem trimEnd_linedWorld :
    trimEnd (String.ofList (Site.groupedCode ++ ['\n'])).toList = Site.groupedCode := by decide

theorem put_linedWorld :
    (linedWorld.put "a.js" (String.ofList ['(', 'f', ')', '(', '0', ')']).toUTF8).files =
      [("a.js", (String.ofList ['(', 'f', ')', '(', '0', ')']).toUTF8)] := rfl

/-- The arguments of a run that mends `a.js`. -/
theorem ofArguments_fix :
    Options.ofArguments ["--fix", "a.js"] = .ok { file := "a.js", fix := true } := by decide

/-- The run deletes the space in `(f) (0)`, and the new line after it. -/
theorem run_fix_keeps_linedWorld :
    groupedTree.WellFormed Site.groupedCode ∧
      (linedWorld.run noRefusals groupedParser ["--fix", "a.js"]).2.files =
        [("a.js", (String.ofList ['(', 'f', ')', '(', '0', ')']).toUTF8)] := by
  have hwf : groupedTree.WellFormed Site.groupedCode := by decide
  refine ⟨hwf, ?_⟩
  have hstdin : ({ file := "a.js", fix := true } : Options).isStdin = false := by decide
  have hparse : groupedParser (trimEnd (String.ofList (Site.groupedCode ++ ['\n'])).toList) =
      some groupedTree := by
    rw [trimEnd_linedWorld]
    exact groupedParser_groupedCode
  have hsettles : linedWorld.Settles { file := "a.js", fix := true } .never := rfl
  obtain ⟨-, source, findings, fixed, -, -, -, hfixes, -, -, -, -, hput⟩ :=
    run_fix_keeps noRefusals ofArguments_fix rfl rfl hstdin hsettles leadsTo_linedWorld
      read_linedWorld hparse (trimEnd_linedWorld.symm ▸ hwf) rfl
  obtain ⟨source', findings', hfixes', -⟩ := fixes_groupedCode
  rw [trimEnd_linedWorld] at hfixes
  obtain ⟨rfl, rfl, rfl⟩ := hfixes.unique hfixes'
  rw [hput (hfixes.diagnostics_ne_nil (by decide)) rfl, put_linedWorld]

/-- The file `a.js` does not hold what it has held with only the reported gap taken out: with the
new line at its end it would be longer by one byte. -/
theorem run_fix_linedWorld :
    ∃ source findings,
      Fixes groupedParser "a.js" .never Site.groupedCode source findings
        ['(', 'f', ')', '(', '0', ')'] ∧
      linedWorld.read "a.js" = .ok (String.ofList (Site.groupedCode ++ ['\n'])).toUTF8 ∧
      ∀ gaps out, gaps.Perm findings.gaps.dedup →
        Regapped (Gap.spacing .never) 0 gaps (Site.groupedCode ++ ['\n']) out →
          (linedWorld.run noRefusals groupedParser ["--fix", "a.js"]).2.read "a.js" ≠
            .ok (String.ofList out).toUTF8 := by
  obtain ⟨source, findings, hfixes, -⟩ := fixes_groupedCode
  refine ⟨source, findings, hfixes, read_linedWorld, ?_⟩
  intro gaps out hgaps hregapped hread
  -- what the file holds after the run
  have hholds : linedWorld.Holds { file := "a.js", fix := true } Site.groupedCode := by
    refine ⟨_, String.ofList (Site.groupedCode ++ ['\n']), ?_, decodeUtf8_toUTF8 _,
      trimEnd_linedWorld⟩
    rw [if_neg (by decide)]
    exact read_linedWorld
  have hsettles : linedWorld.Settles { file := "a.js", fix := true } .never := rfl
  have hfiles := (run_files_of_fixes noRefusals ofArguments_fix rfl rfl (by decide) hsettles hholds
    leadsTo_linedWorld hfixes).2 (by decide) rfl
  rw [read_congr hfiles "a.js", read_put_self leadsTo_linedWorld, Except.ok.injEq] at hread
  have hout := congrArg decodeUtf8 hread
  rw [decodeUtf8_toUTF8, decodeUtf8_toUTF8, Except.ok.injEq] at hout
  obtain rfl : ['(', 'f', ')', '(', '0', ')'] = out := by
    simpa using congrArg String.toList hout
  -- the gaps are those of the text without the new line, so that as much goes
  obtain ⟨source', findings', fixed, gaps', hfixes', hgaps', hregapped', -, -⟩ :=
    exists_regapped "a.js" .never groupedParser_groupedCode (by decide) rfl
  obtain ⟨rfl, rfl, rfl⟩ := hfixes.unique hfixes'
  have hlength := hregapped.byteLength_add_comm hregapped' (hgaps.trans hgaps'.symm)
  revert hlength
  decide

end World

end ParenGap
