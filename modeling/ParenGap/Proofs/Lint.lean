import Mathlib.Data.List.Forall2
import Mathlib.Tactic
import ParenGap.Lint
import ParenGap.Proofs.Gap.Verdict
import ParenGap.Proofs.Position
import ParenGap.Proofs.Tree.Walk

/-!
# The findings of a check

A source is consistent if its lines are those of its text and its tokens lie in the text; the source
of a well formed tree is (`Tree.WellFormed.exists_ofTree?`). The check of a consistent source always
answers, and its findings are those of its sites one by one: a fault for every faulty site and a
diagnostic for every violation, in the order of the sites (`Consistent.exists_checkSites?`). The
edits and the gaps of the diagnostics are those of the violations.
-/

set_option autoImplicit false

namespace ParenGap

/-- The fault of a site, if it has one. -/
def Site.fault? (site : Site) (s : TokenStream) (code : List Char) (policy : Policy) :
    Option Fault :=
  match site.check? s code policy with
  | some (.error fault) => some fault
  | _ => none

/-- The violation at a site, if there is one. -/
def Site.violation? (site : Site) (s : TokenStream) (code : List Char) (policy : Policy) :
    Option Violation :=
  match site.check? s code policy with
  | some (.ok found) => found
  | _ => none

/-- The gaps that the diagnostics of a check refer to. -/
def Findings.gaps (f : Findings) : List Span :=
  f.diagnostics.flatMap fun d => d.references.map fun label => label.region.span

namespace Source

/-- The lines are those of the text, and the tokens lie in the text. -/
structure Consistent (source : Source) : Prop where
  lines_eq : source.lines = (Text.lines source.code).toArray
  liesIn : source.tokens.LiesIn source.code

/-- The faults of the sites of a list. -/
def faultsAt (source : Source) (policy : Policy) (sites : List Site) : List Fault :=
  sites.filterMap fun site => site.fault? source.tokens source.code policy

/-- The violations at the sites of a list. -/
def violationsAt (source : Source) (policy : Policy) (sites : List Site) : List Violation :=
  sites.filterMap fun site => site.violation? source.tokens source.code policy

/-- The findings are the faults and the violations at the sites, one by one. -/
structure Reports (source : Source) (policy : Policy) (sites : List Site)
    (findings : Findings) : Prop where
  faults_eq : findings.faults = source.faultsAt policy sites
  diagnostics_of : List.Forall₂
    (fun v d => Violation.diagnostic? v source.file source.lines = some d)
    (source.violationsAt policy sites) findings.diagnostics

end Source

section Diagnostics

variable {source : Source} {policy : Policy} {site : Site} {v : Violation} {d : Diagnostic}
  {s : TokenStream} {code : List Char} {sites : List Site} {findings : Findings}

theorem Site.violation?_eq_some_iff (h : s.LiesIn code) :
    site.violation? s code policy = some v ↔ site.Violates s code policy v := by
  rw [← Site.check?_eq_violation_iff h, Site.violation?]
  rcases hc : site.check? s code policy with _ | _ | found <;> simp

/-- The anchor and the gap of a violation lie between places of the text. -/
theorem Site.Violates.places (hv : site.Violates s code policy v) (h : s.LiesIn code) :
    (Text.IsPlace code v.anchor.start ∧ Text.IsPlace code v.anchor.stop) ∧
      Text.IsPlace code v.gap.start ∧ Text.IsPlace code v.gap.stop := by
  obtain ⟨o, b, t, text, -, -, -, ht, htext, -, -, hanchor, hgap, -⟩ := hv
  rw [hanchor, hgap]
  exact ⟨Text.isPlace_of_slice? (h.texts t (TokenStream.mem_of_get? ht)),
    Text.isPlace_of_slice? htext⟩

/-- The diagnostic of a violation carries its edit, and refers to its gap alone. -/
theorem Violation.diagnostic?_spec {file : String} {lines : Array Text.Line}
    (h : v.diagnostic? file lines = some d) :
    d.edit = some v.edit ∧ (d.references.map fun label => label.region.span) = [v.gap] := by
  simp only [diagnostic?, Option.bind_eq_some_iff, Option.map_eq_some_iff] at h
  obtain ⟨anchor, -, gap, hgap, rfl⟩ := h
  simp only [Region.ofSpan?, Option.bind_eq_some_iff, Option.map_eq_some_iff] at hgap
  obtain ⟨first, -, last, -, rfl⟩ := hgap
  simp

/-- The diagnostic of a violation says what is wrong and with what kind of call, and it is reported
at the anchor. -/
theorem Violation.diagnostic?_anchor {file : String} {lines : Array Text.Line}
    (h : v.diagnostic? file lines = some d) :
    d.defect = v.defect ∧ d.callKind = some v.callKind ∧
      d.anchor?.map Region.span = some v.anchor := by
  simp only [diagnostic?, Option.bind_eq_some_iff, Option.map_eq_some_iff] at h
  obtain ⟨anchor, hanchor, gap, -, rfl⟩ := h
  simp only [Region.ofSpan?, Option.bind_eq_some_iff, Option.map_eq_some_iff] at hanchor
  obtain ⟨first, -, last, -, rfl⟩ := hanchor
  simp [Diagnostic.anchor?]

theorem Source.Consistent.exists_diagnostic? (h : source.Consistent)
    (hv : site.Violates source.tokens source.code policy v) :
    ∃ d, v.diagnostic? source.file source.lines = some d := by
  obtain ⟨⟨hanchor, hanchor'⟩, hgap, hgap'⟩ := hv.places h.liesIn
  obtain ⟨anchor, hanchor, -⟩ := Region.exists_ofSpan? hanchor hanchor'
  obtain ⟨gap, hgap, -⟩ := Region.exists_ofSpan? hgap hgap'
  rw [h.lines_eq]
  simp [Violation.diagnostic?, hanchor, hgap]

/-- The check of the sites of a list answers, site by site. -/
theorem Source.Consistent.exists_checkSites? (h : source.Consistent) (policy : Policy)
    (sites : List Site) :
    ∃ findings, source.checkSites? policy sites = some findings ∧
      source.Reports policy sites findings := by
  induction sites with
  | nil => exact ⟨Findings.empty, rfl, rfl, .nil⟩
  | cons site sites ih =>
      obtain ⟨findings, hcheck, hfaults, hdiagnostics⟩ := ih
      rcases hsite : site.check? source.tokens source.code policy with _ | fault | found
      · -- the check of a site always answers
        rcases Site.check?_cases h.liesIn site policy with
          ⟨fault, -, hc⟩ | ⟨-, hc⟩ | ⟨b, t, u, text, -, hc⟩ <;> simp [hc] at hsite
      · refine ⟨{ findings with faults := fault :: findings.faults }, ?_, ?_, ?_⟩
        · simp [checkSites?, hsite, hcheck]
        · simp [faultsAt, Site.fault?, hsite, hfaults]
        · simpa [violationsAt, Site.violation?, hsite] using hdiagnostics
      · -- an answer without a violation leaves the findings as they are
        cases found with
        | none =>
            refine ⟨findings, ?_, ?_, ?_⟩
            · simp [checkSites?, hsite, hcheck]
            · simpa [faultsAt, Site.fault?, hsite] using hfaults
            · simpa [violationsAt, Site.violation?, hsite] using hdiagnostics
        | some v =>
            obtain ⟨d, hd⟩ :=
              h.exists_diagnostic? ((Site.check?_eq_violation_iff h.liesIn).1 hsite)
            refine ⟨{ findings with diagnostics := d :: findings.diagnostics }, ?_, ?_, ?_⟩
            · simp [checkSites?, hsite, hcheck, hd]
            · simpa [faultsAt, Site.fault?, hsite] using hfaults
            · simpa [violationsAt, Site.violation?, hsite] using ⟨hd, hdiagnostics⟩

theorem Source.Consistent.exists_check? (h : source.Consistent) (policy : Policy) :
    ∃ findings, source.check? policy = some findings ∧
      source.Reports policy source.tree.sites findings :=
  h.exists_checkSites? policy source.tree.sites

/-- The edits of the findings are those of the violations. -/
theorem Source.Reports.edits_eq (h : source.Reports policy sites findings) :
    findings.edits = (source.violationsAt policy sites).map Violation.edit := by
  have hall := h.diagnostics_of
  rw [Findings.edits]
  generalize source.violationsAt policy sites = violations at hall ⊢
  generalize findings.diagnostics = diagnostics at hall ⊢
  induction hall with
  | nil => rfl
  | cons hd _ ih =>
      rw [List.filterMap_cons, (Violation.diagnostic?_spec hd).1, List.map_cons, ← ih]

/-- The gaps that the findings refer to are those of the violations. -/
theorem Source.Reports.gaps_eq (h : source.Reports policy sites findings) :
    findings.gaps = (source.violationsAt policy sites).map Violation.gap := by
  have hall := h.diagnostics_of
  rw [Findings.gaps]
  generalize source.violationsAt policy sites = violations at hall ⊢
  generalize findings.diagnostics = diagnostics at hall ⊢
  induction hall with
  | nil => rfl
  | cons hd _ ih =>
      rw [List.flatMap_cons, (Violation.diagnostic?_spec hd).2, List.map_cons, ← ih]
      rfl

/-- Every diagnostic is that of a violation. -/
theorem Source.Reports.exists_violation (h : source.Reports policy sites findings)
    (hd : d ∈ findings.diagnostics) :
    ∃ v ∈ source.violationsAt policy sites, v.diagnostic? source.file source.lines = some d := by
  have hall := h.diagnostics_of
  generalize source.violationsAt policy sites = violations at hall ⊢
  generalize findings.diagnostics = diagnostics at hall hd
  induction hall with
  | nil => cases hd
  | @cons v _ _ _ hv _ ih =>
      rcases List.mem_cons.1 hd with rfl | hd
      · exact ⟨v, List.mem_cons_self, hv⟩
      · obtain ⟨w, hw, hwd⟩ := ih hd
        exact ⟨w, List.mem_cons_of_mem _ hw, hwd⟩

theorem Source.Reports.diagnostics_eq_nil_iff (h : source.Reports policy sites findings) :
    findings.diagnostics = [] ↔ source.violationsAt policy sites = [] := by
  rw [← List.length_eq_zero_iff, ← List.length_eq_zero_iff, h.diagnostics_of.length_eq]

theorem Source.Consistent.mem_violationsAt_iff (h : source.Consistent) :
    v ∈ source.violationsAt policy sites ↔
      ∃ site ∈ sites, site.Violates source.tokens source.code policy v := by
  simp only [Source.violationsAt, List.mem_filterMap, Site.violation?_eq_some_iff h.liesIn]

/-- The source of a well formed tree exists and is consistent. -/
theorem Tree.WellFormed.exists_ofTree? {tree : Tree} (h : tree.WellFormed code) (file : String) :
    ∃ source tokens, Source.ofTree? file code tree = some source ∧ source.Consistent ∧
      source.file = file ∧ source.code = code ∧ source.tree = tree ∧
      tree.tokens? code = some tokens ∧ source.tokens = TokenStream.ofList tokens := by
  obtain ⟨tokens, htokens⟩ := h.exists_tokens?
  refine ⟨⟨file, code, tree, (Text.lines code).toArray, TokenStream.ofList tokens⟩, tokens, ?_,
    ⟨rfl, h.liesIn htokens⟩, rfl, rfl, rfl, htokens, rfl⟩
  rw [Source.ofTree?, TokenStream.ofTree?_eq, htokens]
  rfl

end Diagnostics

end ParenGap
