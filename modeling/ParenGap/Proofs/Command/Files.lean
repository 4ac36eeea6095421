import Mathlib.Tactic
import ParenGap.Proofs.Command.Run
import ParenGap.Proofs.Fix.Idempotence

/-!
# The files after a run

A run changes no file but its input file, and that one only if it mends it (`World.Mends`): the
arguments ask for a fix of a file that can be written, the configuration is there, the text parses,
and something is reported of it under the policy of the run. After every other run, whichever way it
ends, all files are as before (`World.run_files`).
-/

set_option autoImplicit false

namespace ParenGap

open Text

/-- A text of which nothing is reported is not changed by its fix. -/
theorem Source.fixed?_of_diagnostics_eq_nil {source : Source} {policy : Policy}
    {findings : Findings} (hcheck : source.check? policy = some findings)
    (hnil : findings.diagnostics = []) : source.fixed? policy = some source.code := by
  have hedits : findings.edits = [] := by
    rw [Findings.edits, hnil]
    rfl
  rw [fixed?, hcheck, Option.bind_some, hedits, Patch.ofList, List.mergeSort_nil, Patch.keepFrom,
    Patch.applied?, Patch.appliedFrom?, cut?_zero]
  rfl

namespace Command

variable {w : World} {refusals : World.Refusals} {parser : Parser} {options : Options}
  {policy : Policy} {file : String} {code fixed : List Char} {source : Source}

/-- What has been parsed is the source of the text. -/
theorem code_eq_of_parseChecked (h : parseChecked parser file code = .ok source) :
    source.code = code := by
  unfold parseChecked at h
  split at h
  · cases h
  · rename_i tree _
    cases htree : Source.ofTree? file code tree with
    | none => simp [htree, orOutside, Except.bind] at h
    | some source' =>
        simp only [htree, orOutside, Except.bind] at h
        split at h
        · cases h
        · cases h
          obtain ⟨tokens, -, rfl⟩ := Option.map_eq_some_iff.1 htree
          rfl

/-- A text that can be fixed has been parsed and checked. -/
theorem exists_fixes_of_fixCode (h : fixCode parser file policy code = .ok fixed) :
    ∃ source findings, Fixes parser file policy code source findings fixed := by
  cases hparsed : parseChecked parser file code with
  | error failure => simp [fixCode, hparsed, Except.bind] at h
  | ok source =>
      cases hcheck : source.check? policy with
      | none => simp [fixCode, hparsed, Source.fixed?, hcheck, orOutside, Except.bind] at h
      | some findings => exact ⟨source, findings, hparsed, hcheck, h⟩

/-- A text that its fix changes has something reported of it. -/
theorem Fixes.diagnostics_ne_nil {findings : Findings}
    (h : Fixes parser file policy code source findings fixed) (hne : fixed ≠ code) :
    findings.diagnostics ≠ [] := by
  intro hnil
  apply hne
  have hsame := Source.fixed?_of_diagnostics_eq_nil h.checked hnil
  have hfixed := h.fixed
  rw [fixCode, h.parsed] at hfixed
  simp only [Except.bind, hsame, orOutside, Except.ok.injEq] at hfixed
  rw [← hfixed, code_eq_of_parseChecked h.parsed]

/-- The last stage of a run touches no file. -/
theorem act_checkAndReport_files :
    (act (checkAndReport (World.host refusals) parser options policy code) w).2.files =
      w.files := by
  rw [act_checkAndReport]
  split
  · rfl
  split
  · rfl
  split
  · rfl
  · exact World.reported_files w options _

end Command

namespace World

open Command

variable {w w' : World} {refusals : Refusals} {parser : Parser} {args : List String}
  {options : Options} {policy : Policy} {name : String} {code fixed : List Char}

/-- A run with the given options mends the file with the given name: a fix is asked for and not the
list of rules, the input is that file, which can be written, the configuration settles a policy, the
text of the file, without the white space at its end, has no syntax error, something is reported of
it under that policy, and the mended text is another one. -/
structure Mends (w : World) (refusals : Refusals) (parser : Parser) (options : Options)
    (name : String) (fixed : List Char) : Prop where
  fix : options.fix = true
  runs : options.listRules = false
  fromFile : options.isStdin = false
  leadsTo : w.LeadsTo options.file name
  writable : refusals name = none
  changes : ∃ policy code source findings, w.Settles options policy ∧ w.Holds options code ∧
    Fixes parser options.file policy code source findings fixed ∧ findings.diagnostics ≠ [] ∧
      fixed ≠ code

/-- Whatever way a run ends, its files are those of its execution. -/
theorem run_files_of_options (h : Options.ofArguments args = .ok options) :
    (w.run refusals parser args).2.files =
      (act (execute (host refusals) parser options) w).2.files := by
  rw [run_of_options h]
  split <;> rename_i heq <;> rw [heq]
  rfl

/-- The files after a run that goes as far as its fix are those that the fix leaves, or the old ones
if it is refused. -/
theorem act_execute_files_of_leaves (hlist : options.listRules = false)
    (hsettles : w.Settles options policy) (hholds : w.Holds options code)
    (hleaves : Leaves parser options policy code fixed) :
    (act (execute (host refusals) parser options) w).2.files =
      match w.mended refusals options code fixed with
      | .error _ => w.files
      | .ok w' => w'.files := by
  rw [act_execute_of_leaves hlist hsettles hholds hleaves]
  cases w.mended refusals options code fixed with
  | error error => rfl
  | ok w' => exact act_checkAndReport_files

/-- A run that mends its file puts the mended text into it. -/
theorem Mends.act_execute_files (h : w.Mends refusals parser options name fixed) :
    (act (execute (host refusals) parser options) w).2.files =
      (w.put name (String.ofList fixed).toUTF8).files := by
  obtain ⟨policy, code, source, findings, hsettles, hholds, hfixes, -, hne⟩ := h.changes
  have hleaves : Leaves parser options policy code fixed := by
    rw [Leaves, if_pos h.fix]
    exact hfixes.fixed
  rw [act_execute_files_of_leaves h.runs hsettles hholds hleaves,
    mended_of_leadsTo h.fix (by simp [h.fromFile]) h.leadsTo hne, h.writable]

/-- If a run does not mend its file, then its fix changes no file. -/
theorem mended_files (hlist : options.listRules = false) (hsettles : w.Settles options policy)
    (hholds : w.Holds options code) (hleaves : Leaves parser options policy code fixed)
    (hmends : ∀ name fixed, ¬ w.Mends refusals parser options name fixed)
    (hmended : w.mended refusals options code fixed = .ok w') : w'.files = w.files := by
  rcases mended_cases hmended with ⟨hfiles, -⟩ | ⟨name, hfix, hstdin, hne, hname, hrefusal, -⟩
  · exact hfiles
  · -- here the file is written, and everything that a mended file takes is there
    rw [Leaves, if_pos hfix] at hleaves
    obtain ⟨source, findings, hfixes⟩ := exists_fixes_of_fixCode hleaves
    refine absurd ⟨hfix, hlist, by simpa using hstdin, hname, hrefusal, ?_⟩ (hmends name fixed)
    exact ⟨policy, code, source, findings, hsettles, hholds, hfixes,
      hfixes.diagnostics_ne_nil hne, hne⟩

/-- A run that does not mend its file changes no file, at whatever stage it ends. -/
theorem act_execute_files (hmends : ∀ name fixed, ¬ w.Mends refusals parser options name fixed) :
    (act (execute (host refusals) parser options) w).2.files = w.files := by
  cases hconfig : w.config options with
  | error failure => rw [act_execute, hconfig]
  | ok config =>
      by_cases hlist : options.listRules = true
      · rw [act_execute, hconfig]
        simp [hlist]
      have hlist : options.listRules = false := by simpa using hlist
      cases hcode : w.code options with
      | error failure =>
          rw [act_execute, hconfig, hcode]
          simp [hlist]
      | ok code =>
          have hsettles := settles_iff.2 ⟨config, hconfig, rfl⟩
          have hholds := holds_iff.2 hcode
          rcases leaves_or_error parser options (effectivePolicy options config) code with
            ⟨code', hleaves⟩ | ⟨hfix, failure, herror⟩
          · rw [act_execute_files_of_leaves hlist hsettles hholds hleaves]
            cases hmended : w.mended refusals options code code' with
            | error error => rfl
            | ok w' => exact mended_files hlist hsettles hholds hleaves hmends hmended
          · -- the run ends before anything is written
            rw [act_execute, hconfig, hcode]
            simp [hlist, hfix, act_mend, herror]

/-- A run that mends its input file puts the mended text into it and touches no other file; after
every other run all files are as before. -/
theorem run_files (w : World) (refusals : Refusals) (parser : Parser) (args : List String) :
    (∀ options name fixed, Options.ofArguments args = .ok options →
      w.Mends refusals parser options name fixed →
        (w.run refusals parser args).2.files = (w.put name (String.ofList fixed).toUTF8).files) ∧
    ((∀ options name fixed, Options.ofArguments args = .ok options →
      ¬ w.Mends refusals parser options name fixed) →
        (w.run refusals parser args).2.files = w.files) := by
  constructor
  · intro options name fixed hargs hmends
    rw [run_files_of_options hargs]
    exact hmends.act_execute_files
  · intro hnone
    cases hargs : Options.ofArguments args with
    | error stop => exact run_of_stop hargs
    | ok options =>
        rw [run_files_of_options hargs]
        exact act_execute_files fun name fixed => hnone options name fixed hargs

/-- A world with the file `a.js`, which holds `(f) (0)`. -/
def groupedWorld : World where
  files := [("a.js", (String.ofList Site.groupedCode).toUTF8)]
  input := ByteArray.empty

theorem leadsTo_groupedWorld : groupedWorld.LeadsTo "a.js" "a.js" := by
  rw [LeadsTo]
  decide

theorem read_groupedWorld :
    groupedWorld.read "a.js" = .ok (String.ofList Site.groupedCode).toUTF8 := by
  rw [read_eq_of_leadsTo leadsTo_groupedWorld]
  rfl

theorem holds_groupedWorld {options : Options} (hfile : options.file = "a.js") :
    groupedWorld.Holds options Site.groupedCode := by
  refine ⟨_, String.ofList Site.groupedCode, ?_, decodeUtf8_toUTF8 _, by decide⟩
  rw [if_neg (by rw [Options.isStdin, hfile]; decide), hfile]
  exact read_groupedWorld

/-- A run with `--fix` changes the file, and a run without it does not. -/
theorem run_files_groupedWorld :
    (groupedWorld.run noRefusals groupedParser ["--fix", "a.js"]).2.files =
        [("a.js", (String.ofList ['(', 'f', ')', '(', '0', ')']).toUTF8)] ∧
      (groupedWorld.run noRefusals groupedParser ["a.js"]).2.files = groupedWorld.files := by
  have hargs : Options.ofArguments ["--fix", "a.js"] = .ok { file := "a.js", fix := true } := by
    decide
  have hargs' : Options.ofArguments ["a.js"] = .ok { file := "a.js" } := by decide
  constructor
  · obtain ⟨source, findings, hfixes, -⟩ := fixes_groupedCode
    have hne : ['(', 'f', ')', '(', '0', ')'] ≠ Site.groupedCode := by decide
    have hmends : groupedWorld.Mends noRefusals groupedParser { file := "a.js", fix := true } "a.js"
        ['(', 'f', ')', '(', '0', ')'] := by
      refine ⟨rfl, rfl, by decide, leadsTo_groupedWorld, rfl, ?_⟩
      exact ⟨.never, Site.groupedCode, source, findings, rfl, holds_groupedWorld rfl, hfixes,
        hfixes.diagnostics_ne_nil hne, hne⟩
    exact (run_files groupedWorld noRefusals groupedParser _).1 _ _ _ hargs hmends
  · refine (run_files groupedWorld noRefusals groupedParser _).2 ?_
    intro options name fixed hargs'' hmends
    have hfix := hmends.fix
    obtain rfl := Except.ok.inj (hargs'.symm.trans hargs'')
    cases hfix

end World

end ParenGap
