import Mathlib.Data.List.Dedup
import Mathlib.Tactic
import ParenGap.Command
import ParenGap.Proofs.Fix.Edits
import ParenGap.Proofs.Tree.Nesting

/-!
# What a fix leaves alone

A fix of a text with a well formed tree always gives a text (`exists_fixes`). The main statement,
`fixCode_respaces`, says what that text is: it has the same characters but for white space, every
token stands in it unchanged, and its length tells how many bytes of white space have gone or how
many spaces have been put in. It is the text itself exactly if nothing is reported.
-/

set_option autoImplicit false

namespace ParenGap

open Text

/-- What patches without replacements add is what they remove. -/
theorem Edit.totalGrowth_of_deletions {es : List Edit} (h : ∀ e ∈ es, e.replacement = []) :
    totalGrowth es = -(((es.map Edit.span).map Span.length).sum : Nat) := by
  induction es with
  | nil => rfl
  | cons e es ih =>
      have hhead := h e List.mem_cons_self
      have htail := ih fun f hf => h f (List.mem_cons_of_mem _ hf)
      rw [totalGrowth_cons, htail, growth, hhead]
      simp only [byteLength_nil, List.map_cons, List.sum_cons]
      omega

/-- What insertions of a single space add is their number. -/
theorem Edit.totalGrowth_of_insertions {es : List Edit}
    (h : ∀ e ∈ es, e.replacement = [' '] ∧ e.span.start = e.span.stop) :
    totalGrowth es = es.length := by
  induction es with
  | nil => rfl
  | cons e es ih =>
      obtain ⟨hhead, hempty⟩ := h e List.mem_cons_self
      have htail := ih fun f hf => h f (List.mem_cons_of_mem _ hf)
      have hspace : byteLength [' '] = 1 := by decide
      rw [totalGrowth_cons, htail, growth, hhead, hspace, Span.length, hempty]
      simp only [List.length_cons]
      omega

namespace Source

variable {source : Source} {policy : Policy} {sites : List Site} {findings : Findings}
  {code' : List Char}

/-- Under `never` the text gets shorter by the reported gaps. -/
theorem Reports.byteLength_never (h : source.Reports .never sites findings)
    (hsource : source.Consistent) (hout : findings.patch.applied? source.code = some code') :
    byteLength code' + (findings.gaps.dedup.map Span.length).sum = byteLength source.code := by
  have hlen := Patch.byteLength_applied? (h.respacing hsource).inOrder hout
  have hdel : ∀ e ∈ findings.patch.edits, e.replacement = [] := by
    intro e he
    obtain ⟨site, -, v, hv, rfl⟩ := (h.mem_patch_iff hsource).1 he
    rw [hv.edit_eq]
    rfl
  have hsum := ((h.perm_dedup_gaps hsource).map Span.length).sum_eq
  rw [Edit.totalGrowth_of_deletions hdel, hsum] at hlen
  omega

/-- Under `always` the text gets longer by the number of the reported gaps. -/
theorem Reports.byteLength_always (h : source.Reports .always sites findings)
    (hsource : source.Consistent) (hout : findings.patch.applied? source.code = some code') :
    byteLength code' = byteLength source.code + findings.gaps.dedup.length := by
  have hlen := Patch.byteLength_applied? (h.respacing hsource).inOrder hout
  have hins : ∀ e ∈ findings.patch.edits,
      e.replacement = [' '] ∧ e.span.start = e.span.stop := by
    intro e he
    obtain ⟨site, -, v, hv, rfl⟩ := (h.mem_patch_iff hsource).1 he
    rw [hv.edit_eq]
    exact ⟨rfl, hv.gap_start_eq_stop⟩
  have hcount := (h.perm_dedup_gaps hsource).length_eq
  rw [List.length_map] at hcount
  rw [Edit.totalGrowth_of_insertions hins, hcount] at hlen
  omega

/-- The patch is empty exactly if nothing is reported. -/
theorem Reports.patch_edits_eq_nil_iff (h : source.Reports policy sites findings)
    (hsource : source.Consistent) : findings.patch.edits = [] ↔ findings.diagnostics = [] := by
  rw [h.diagnostics_eq_nil_iff]
  constructor
  · intro hnil
    apply List.eq_nil_iff_forall_not_mem.2
    intro v hv
    obtain ⟨site, hsite, hv⟩ := hsource.mem_violationsAt_iff.1 hv
    have hmem := (h.mem_patch_iff hsource).2 ⟨site, hsite, v, hv, rfl⟩
    simp [hnil] at hmem
  · intro hnil
    apply List.eq_nil_iff_forall_not_mem.2
    intro e he
    obtain ⟨site, hsite, v, hv, -⟩ := (h.mem_patch_iff hsource).1 he
    have hmem := hsource.mem_violationsAt_iff.2 ⟨site, hsite, hv⟩
    simp [hnil] at hmem

/-- The mended text is the text itself exactly if nothing is reported. -/
theorem Reports.eq_code_iff (h : source.Reports policy sites findings)
    (hsource : source.Consistent) (hout : findings.patch.applied? source.code = some code') :
    code' = source.code ↔ findings.diagnostics = [] := by
  rw [← h.patch_edits_eq_nil_iff hsource]
  constructor
  · -- every edit changes the length, and all edits change it in the same direction
    intro heq
    have hgaps := h.perm_dedup_gaps hsource
    cases policy with
    | never =>
        have hlen := h.byteLength_never hsource hout
        have hzero : (findings.gaps.dedup.map Span.length).sum = 0 := by
          rw [heq] at hlen
          omega
        rw [← (hgaps.map Span.length).sum_eq] at hzero
        apply List.eq_nil_iff_forall_not_mem.2
        intro e he
        have hmem : e.span.length ∈ (findings.patch.edits.map Edit.span).map Span.length :=
          List.mem_map_of_mem (List.mem_map_of_mem he)
        -- its gap is not empty, so the sum of the lengths is not zero
        have hle := List.le_sum_of_mem hmem
        obtain ⟨site, -, v, hv, rfl⟩ := (h.mem_patch_iff hsource).1 he
        have hlt := hv.gap_start_lt_stop
        rw [hv.edit_eq, Span.length] at hle
        simp only at hle
        omega
    | always =>
        have hlen := h.byteLength_always hsource hout
        rw [heq, ← hgaps.length_eq, List.length_map] at hlen
        apply List.eq_nil_of_length_eq_zero
        omega
  · intro hnil
    rw [Patch.applied?, hnil, Patch.appliedFrom?, cut?_zero] at hout
    simpa using hout.symm

end Source

namespace Command

/-- A fix of a text: what is parsed, what is found, and the text that comes out. -/
structure Fixes (parser : Parser) (file : String) (policy : Policy) (code : List Char)
    (source : Source) (findings : Findings) (code' : List Char) : Prop where
  parsed : parseChecked parser file code = .ok source
  checked : source.check? policy = some findings
  fixed : fixCode parser file policy code = .ok code'

section Run

variable {parser : Parser} {code : List Char} {tree : Tree}

/-- A fix has one outcome. -/
theorem Fixes.unique {file : String} {policy : Policy} {source source' : Source}
    {findings findings' : Findings} {out out' : List Char}
    (h : Fixes parser file policy code source findings out)
    (h' : Fixes parser file policy code source' findings' out') :
    source = source' ∧ findings = findings' ∧ out = out' := by
  obtain rfl : source = source' := by simpa [h.parsed] using h'.parsed
  obtain rfl : findings = findings' := by simpa [h.checked] using h'.checked
  exact ⟨rfl, rfl, by simpa [h.fixed] using h'.fixed⟩

/-- A text with a well formed tree and no syntax error can be parsed. -/
theorem exists_parseChecked (file : String) (hparse : parser code = some tree)
    (hwf : tree.WellFormed code) (herr : tree.hasError = false) :
    ∃ source tokens, parseChecked parser file code = .ok source ∧ source.Consistent ∧
      source.code = code ∧ source.tree = tree ∧ tree.tokens? code = some tokens ∧
      source.tokens = TokenStream.ofList tokens := by
  obtain ⟨source, tokens, hsource, hconsistent, -, rfl, rfl, htokens, hstream⟩ :=
    hwf.exists_ofTree? file
  refine ⟨source, tokens, ?_, hconsistent, rfl, rfl, htokens, hstream⟩
  simp [parseChecked, hparse, hsource, orOutside, herr, Except.bind]

/-- What can be parsed can be fixed: the edits of its check make a patch that can be applied. -/
theorem exists_fixes_of_parseChecked {file : String} {source : Source}
    (hparsed : parseChecked parser file code = .ok source) (hconsistent : source.Consistent)
    (policy : Policy) :
    ∃ findings code', Fixes parser file policy code source findings code' ∧
      source.Reports policy source.tree.sites findings ∧
      findings.patch.applied? source.code = some code' := by
  obtain ⟨findings, hcheck, hreports⟩ := hconsistent.exists_check? policy
  obtain ⟨code', hout⟩ := Patch.exists_applied? (hreports.respacing hconsistent).inOrder
  have hfixed : source.fixed? policy = some code' := by
    rw [Source.fixed?, hcheck]
    exact hout
  refine ⟨findings, code', ⟨hparsed, hcheck, ?_⟩, hreports, hout⟩
  simp [fixCode, hparsed, hfixed, orOutside, Except.bind]

/-- A text with a well formed tree and no syntax error can be fixed. -/
theorem exists_fixes (file : String) (policy : Policy) (hparse : parser code = some tree)
    (hwf : tree.WellFormed code) (herr : tree.hasError = false) :
    ∃ source findings code' tokens, Fixes parser file policy code source findings code' ∧
      source.Consistent ∧ source.Reports policy source.tree.sites findings ∧
      source.code = code ∧ source.tree = tree ∧ findings.patch.applied? code = some code' ∧
      tree.tokens? code = some tokens ∧ source.tokens = TokenStream.ofList tokens := by
  obtain ⟨source, tokens, hparsed, hconsistent, rfl, rfl, htokens, hstream⟩ :=
    exists_parseChecked file hparse hwf herr
  obtain ⟨findings, code', hfixes, hreports, hout⟩ :=
    exists_fixes_of_parseChecked hparsed hconsistent policy
  exact ⟨source, findings, code', tokens, hfixes, hconsistent, hreports, rfl, rfl, hout, htokens,
    hstream⟩

/-- A fix only respaces gaps: it keeps all characters but white space, it keeps every token, moved
by what the edits before it add, it takes away the reported gaps under `never` and adds a space for
each of them under `always`, and it changes nothing exactly if nothing is reported. -/
theorem fixCode_respaces (file : String) (policy : Policy) (hparse : parser code = some tree)
    (hwf : tree.WellFormed code) (herr : tree.hasError = false) :
    ∃ source findings code', Fixes parser file policy code source findings code' ∧
      code'.filter (fun c => !isBlank c) = code.filter (fun c => !isBlank c) ∧
      (∀ t ∈ source.tokens.tokens.toList, ∃ start stop : Nat,
        (start : Int) =
            t.span.start + Edit.totalGrowth (findings.patch.stoppingBy t.span.start) ∧
          (stop : Int) =
            t.span.stop + Edit.totalGrowth (findings.patch.stoppingBy t.span.start) ∧
          slice? code' start stop = some t.text) ∧
      (match policy with
        | .never =>
            byteLength code' + (findings.gaps.dedup.map Span.length).sum = byteLength code
        | .always => byteLength code' = byteLength code + findings.gaps.dedup.length) ∧
      (code' = code ↔ findings.diagnostics = []) := by
  obtain ⟨source, findings, code', tokens, hfixes, hsource, hreports, rfl, rfl, hout, -, -⟩ :=
    exists_fixes file policy hparse hwf herr
  have hrespacing := hreports.respacing hsource
  refine ⟨source, findings, code', hfixes, hrespacing.filter_eq hout, ?_, ?_,
    hreports.eq_code_iff hsource hout⟩
  · intro t ht
    obtain ⟨i, hi⟩ := TokenStream.exists_get?_of_mem ht
    obtain ⟨hslice, hstart, hstop⟩ := hrespacing.slice?_token hsource.liesIn hout hi
    exact ⟨_, _, hstart, hstop, hslice⟩
  · cases policy with
    | never => exact hreports.byteLength_never hsource hout
    | always => exact hreports.byteLength_always hsource hout

/-- A parser that knows `(f) (0)` and `(f)(0)`. -/
def groupedParser : Parser := fun code =>
  if code = Site.groupedCode then some groupedTree
  else if code = ['(', 'f', ')', '(', '0', ')'] then some closedTree
  else none

theorem groupedParser_groupedCode : groupedParser Site.groupedCode = some groupedTree :=
  if_pos rfl

/-- The fix of `(f) (0)` gives a text that differs from `(f)(0)` in white space at most. -/
theorem fixCode_respaces_groupedCode :
    groupedTree.WellFormed Site.groupedCode ∧
      ∃ source findings code',
        Fixes groupedParser "a.js" .never Site.groupedCode source findings code' ∧
          code'.filter (fun c => !isBlank c) = ['(', 'f', ')', '(', '0', ')'] ∧
          byteLength code' + (findings.gaps.dedup.map Span.length).sum = 7 := by
  have hwf : groupedTree.WellFormed Site.groupedCode := by decide
  obtain ⟨source, findings, code', hfixes, hfilter, -, hlen, -⟩ :=
    fixCode_respaces "a.js" .never groupedParser_groupedCode hwf rfl
  refine ⟨hwf, source, findings, code', hfixes, ?_, ?_⟩
  · rw [hfilter]
    decide
  · rw [hlen]
    decide

end Run

end Command

end ParenGap
