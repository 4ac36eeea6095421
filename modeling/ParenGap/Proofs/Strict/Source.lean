import Mathlib.Tactic
import ParenGap.Proofs.Fix.Frame
import ParenGap.Proofs.Strict.Stream
import ParenGap.Report

/-!
# A run that stays inside

A read outside of a text or of a stream, or a cut inside of a character, would end a run at once.
Where the functions that run cut a text they have no answer in that case; where they read the
stream, or take a line off the front of a text, the functions of `Strict` are the ones that have
none. `Source.ReadsInside` says that the two agree on a source.

The main statement, `Tree.WellFormed.runs_inside`, is about every tree whose nodes are nested and
start and stop at places of the text, with syntax errors and nodes of zero width or without: its
source exists and reads inside, its checks and their reports answer, and so does its fix if the tree
has no error.
-/

set_option autoImplicit false

namespace ParenGap

open Text (Line IsPlace byteLength cut? firstLine)

namespace Strict

/-- What remains of a text after a cut behind its first character is shorter. -/
theorem length_of_cut? {c : Char} {cs : List Char} {n : Nat} {parts : List Char × List Char}
    (h : cut? (c :: cs) n = some parts) (hn : 0 < n) : parts.2.length < (c :: cs).length := by
  obtain ⟨hparts, hlength⟩ := Text.cut?_eq_some_append h
  have hne : parts.1 ≠ [] := by
    intro hnil
    rw [hnil, Text.byteLength_nil] at hlength
    omega
  have hpos := List.length_pos_iff.2 hne
  rw [hparts, List.length_append]
  omega

/-- Where the next line starts in a text that is not empty: after the first newline, or at the
end. -/
def nextLine (cs : List Char) : Nat :=
  if byteLength (firstLine cs) = byteLength cs then byteLength cs
  else byteLength (firstLine cs) + 1

theorem nextLine_pos (c : Char) (cs : List Char) : 0 < nextLine (c :: cs) := by
  have hpos := c.utf8Size_pos
  rw [nextLine, Text.byteLength_cons]
  split_ifs <;> omega

/-- The lines of a text, each cut off at its newline. -/
def linesFrom? (start : Nat) (cs : List Char) : Option (List Line) :=
  match cs with
  | [] => some []
  | c :: cs =>
      (cut? (c :: cs) (byteLength (firstLine (c :: cs)))).bind fun line =>
        match _h : cut? (c :: cs) (nextLine (c :: cs)) with
        | none => none
        | some parts =>
            (linesFrom? (start + nextLine (c :: cs)) parts.2).map (⟨line.1, start⟩ :: ·)
  termination_by cs.length
  decreasing_by exact length_of_cut? _h (nextLine_pos c _)

theorem linesFrom?_of_cuts {c : Char} {cs : List Char} {start : Nat}
    {line parts : List Char × List Char}
    (hline : cut? (c :: cs) (byteLength (firstLine (c :: cs))) = some line)
    (hparts : cut? (c :: cs) (nextLine (c :: cs)) = some parts) :
    linesFrom? start (c :: cs) =
      (linesFrom? (start + nextLine (c :: cs)) parts.2).map (⟨line.1, start⟩ :: ·) := by
  rw [linesFrom?, hline, Option.bind_some]
  split
  · rename_i hnone
    rw [hparts] at hnone
    cases hnone
  · rename_i parts' hsome
    obtain rfl : parts = parts' := Option.some.inj (hparts.symm.trans hsome)
    rfl

end Strict

/-! ## Lines -/

section Lines

variable {cs next : List Char} {start : Nat}

theorem Text.firstLine_eq_self (h : afterFirstLine? cs = none) : firstLine cs = cs := by
  have hnil : cs.dropWhile (· != '\n') = [] := by
    rw [afterFirstLine?] at h
    cases hd : cs.dropWhile (· != '\n') with
    | nil => rfl
    | cons d ds =>
        rw [hd] at h
        cases h
  rw [firstLine, ← List.append_nil (cs.takeWhile _), ← hnil, List.takeWhile_append_dropWhile]

/-- A newline is a character of one byte, so that lines are cut off between characters. -/
theorem Strict.linesFrom?_eq (start : Nat) (cs : List Char) :
    linesFrom? start cs = some (Text.linesFrom start cs) := by
  fun_induction Text.linesFrom start cs with
  | case1 start => rw [linesFrom?]
  | case2 start c cs line hnone =>
      have hline : firstLine (c :: cs) = c :: cs := Text.firstLine_eq_self hnone
      have hnext : nextLine (c :: cs) = byteLength (c :: cs) := by
        rw [nextLine, hline, if_pos rfl]
      have hcut : cut? (c :: cs) (byteLength (c :: cs)) = some (c :: cs, []) := by
        simpa using Text.cut?_byteLength (c :: cs) []
      have hcut' : cut? (c :: cs) (byteLength (firstLine (c :: cs))) = some (c :: cs, []) := by
        rw [hline]
        exact hcut
      rw [← hnext] at hcut
      rw [linesFrom?_of_cuts hcut' hcut, linesFrom?]
      exact congrArg (fun text => some [Line.mk text start]) hline.symm
  | case3 start c cs line next hnone ih =>
      have hsplit : c :: cs = firstLine (c :: cs) ++ '\n' :: next := Text.eq_firstLine_append hnone
      have hnewline : ('\n' : Char).utf8Size = 1 := by decide
      have hnext : nextLine (c :: cs) = byteLength (firstLine (c :: cs)) + 1 := by
        have hlength : byteLength (c :: cs) = byteLength (firstLine (c :: cs)) +
            byteLength ('\n' :: next) :=
          (congrArg byteLength hsplit).trans (Text.byteLength_append _ _)
        rw [Text.byteLength_cons '\n', hnewline] at hlength
        exact if_neg (by omega)
      -- the newline stands between the two cuts
      have hcut : cut? (c :: cs) (byteLength (firstLine (c :: cs))) =
          some (firstLine (c :: cs), '\n' :: next) := Text.cut?_eq_some_iff.2 ⟨hsplit, rfl⟩
      have hcut' : cut? (c :: cs) (nextLine (c :: cs)) =
          some (firstLine (c :: cs) ++ ['\n'], next) := by
        refine Text.cut?_eq_some_iff.2 ⟨by simpa using hsplit, ?_⟩
        rw [hnext, Text.byteLength_append, Text.byteLength_cons, hnewline, Text.byteLength_nil]
      rw [linesFrom?_of_cuts hcut hcut', hnext, ← Nat.add_assoc, ih]
      rfl

end Lines

/-! ## Reports -/

section Reports

variable {code : List Char} {source : Source} {policy : Policy} {sites : List Site}
  {findings : Findings}

/-- Diagnostics whose anchors start at places of the text can be reported. -/
theorem Report.exists_json? {diagnostics : List Diagnostic}
    (h : ∀ d ∈ diagnostics, ∀ anchor, d.anchor? = some anchor → IsPlace code anchor.span.start) :
    ∃ report, json? (Text.lines code).toArray diagnostics = some report := by
  have hrecords : ∃ records, recordsJson? (Text.lines code).toArray diagnostics = some records := by
    induction diagnostics with
    | nil => exact ⟨[], rfl⟩
    | cons d ds ih =>
        obtain ⟨records, hrest⟩ := ih fun d' hd' => h d' (List.mem_cons_of_mem d hd')
        rw [recordsJson?]
        cases hanchor : d.anchor? with
        | none => exact ⟨records, hrest⟩
        | some anchor =>
            obtain ⟨place, hplace⟩ :=
              Position.exists_locate? (h d List.mem_cons_self anchor hanchor)
            simp only [Position.charColumn?, hplace, Option.map_some, Option.bind_some, hrest]
            exact ⟨_, rfl⟩
  obtain ⟨records, hrecords⟩ := hrecords
  exact ⟨_, by rw [json?, hrecords, Option.map_some]⟩

/-- The findings of a consistent source can be reported. -/
theorem Source.Consistent.exists_json? (h : source.Consistent)
    (hreports : source.Reports policy sites findings) :
    ∃ report, Report.json? source.lines findings.diagnostics = some report := by
  rw [h.lines_eq]
  refine Report.exists_json? fun d hd anchor hanchor => ?_
  obtain ⟨v, hv, hdiagnostic⟩ := hreports.exists_violation hd
  obtain ⟨site, -, hviolates⟩ := h.mem_violationsAt_iff.1 hv
  -- the anchor of a diagnostic is the token that ends the callee
  have hspan := (Violation.diagnostic?_anchor hdiagnostic).2.2
  rw [hanchor, Option.map_some, Option.some.injEq] at hspan
  rw [hspan]
  exact (hviolates.places h.liesIn).1.1

end Reports

/-! ## The whole run -/

/-- All reads of a source stay inside: its lines are cut off between characters, its parentheses are
paired without leaving the slots, and the check of every site answers without leaving the stream. -/
structure Source.ReadsInside (source : Source) : Prop where
  lines : Strict.linesFrom? 0 source.code = some source.lines.toList
  partners : Strict.partners? source.tokens.tokens.toList = some source.tokens.partners
  check : ∀ site policy, ∃ answer,
    Strict.check? site source.tokens source.code policy = some answer ∧
      site.check? source.tokens source.code policy = some answer

theorem Source.Consistent.readsInside {source : Source} (h : source.Consistent) :
    source.ReadsInside where
  lines := by
    rw [Strict.linesFrom?_eq, h.lines_eq]
    rfl
  partners := by rw [Strict.partners?_eq, source.tokens.partners_eq]
  check site policy := by
    rw [Strict.check?_eq h.liesIn.toInOrder]
    rcases Site.check?_cases h.liesIn site policy with
      ⟨fault, -, hc⟩ | ⟨-, hc⟩ | ⟨b, t, u, text, -, hc⟩
    · exact ⟨_, hc, hc⟩
    · exact ⟨_, hc, hc⟩
    · exact ⟨_, hc, hc⟩

/-- No read goes outside. If the nodes of a tree are nested and start and stop at places of the
text, the source of the tree exists and reads inside. Its check under each policy answers, with the
regions of all anchors and gaps, and the report on it can be written; if the tree has no error, the
text can be fixed. -/
theorem Tree.WellFormed.runs_inside {tree : Tree} {code : List Char} (h : tree.WellFormed code)
    (file : String) :
    ∃ source, Source.ofTree? file code tree = some source ∧ source.ReadsInside ∧
      ∀ policy, ∃ findings report, source.check? policy = some findings ∧
        Report.json? source.lines findings.diagnostics = some report ∧
        ∀ parser : Parser, parser code = some tree → tree.hasError = false →
          ∃ fixed, Command.fixCode parser file policy code = .ok fixed := by
  obtain ⟨source, tokens, hsource, hconsistent, -, -, -, -, -⟩ := h.exists_ofTree? file
  refine ⟨source, hsource, hconsistent.readsInside, fun policy => ?_⟩
  obtain ⟨findings, hcheck, hreports⟩ := hconsistent.exists_check? policy
  obtain ⟨report, hreport⟩ := hconsistent.exists_json? hreports
  refine ⟨findings, report, hcheck, hreport, fun parser hparse herr => ?_⟩
  obtain ⟨_, _, fixed, _, hfixes, -⟩ := Command.exists_fixes file policy hparse h herr
  exact ⟨fixed, hfixes.fixed⟩

/-- The unfinished call `f(/a/` is checked and reported, and `(f) (0)` is fixed as well. -/
theorem Tree.WellFormed.runs_inside_unfinishedTree :
    unfinishedTree.WellFormed unfinishedCode ∧ unfinishedTree.hasError = true ∧
      (∃ source findings report,
        Source.ofTree? "a.js" unfinishedCode unfinishedTree = some source ∧
          source.ReadsInside ∧ source.check? .always = some findings ∧
          Report.json? source.lines findings.diagnostics = some report) ∧
      groupedTree.WellFormed Site.groupedCode ∧
      ∃ fixed, Command.fixCode Command.groupedParser "a.js" .never Site.groupedCode = .ok fixed := by
  have hgrouped : groupedTree.WellFormed Site.groupedCode := by decide
  refine ⟨unfinishedTree_wellFormed, rfl, ?_, hgrouped, ?_⟩
  · obtain ⟨source, hsource, hinside, hanswers⟩ :=
      unfinishedTree_wellFormed.runs_inside "a.js"
    obtain ⟨findings, report, hcheck, hreport, -⟩ := hanswers .always
    exact ⟨source, findings, report, hsource, hinside, hcheck, hreport⟩
  · obtain ⟨_, -, -, hanswers⟩ := hgrouped.runs_inside "a.js"
    obtain ⟨_, _, -, -, hfix⟩ := hanswers .never
    exact hfix Command.groupedParser Command.groupedParser_groupedCode rfl

end ParenGap
