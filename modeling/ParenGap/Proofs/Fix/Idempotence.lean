import Mathlib.Tactic
import ParenGap.Proofs.Fix.Frame
import ParenGap.Proofs.Fix.Sites

/-!
# Fixing twice

The fix of a text moves its tree, and every site of the moved tree finds the token that ends its
callee and its parenthesis again. A gap that has been edited now has the spacing that the policy
asks for, and a gap that has not been edited has its old text. So no site is against the policy any
longer, and the faulty sites are the same (`Reports.settled`). A second fix changes nothing
(`fixCode_idempotent`).
-/

set_option autoImplicit false

namespace ParenGap

open Text

namespace Source

variable {source : Source} {policy : Policy} {findings : Findings} {site : Site}

/-- After a fix no site is against the policy, and the sites that cannot be checked are the same. -/
theorem Reports.settled {tokens : List Token} {code' : List Char}
    (h : source.Reports policy source.tree.sites findings) (hsource : source.Consistent)
    (htokens : source.tokens = TokenStream.ofList tokens)
    (hmoved : source.tree.Respaced source.code tokens findings.patch code')
    (hsite : site ∈ source.tree.sites) :
    (∀ v, (site.moved findings.patch).check? (source.tokens.moved findings.patch) code' policy ≠
        some (.ok (some v))) ∧
      ((∃ fault, (site.moved findings.patch).check? (source.tokens.moved findings.patch) code'
          policy = some (.error fault)) ↔
        ∃ fault, site.check? source.tokens source.code policy = some (.error fault)) := by
  have hstream : source.tokens.tokens.toList = tokens := by
    rw [htokens]
    rfl
  rw [← hstream] at hmoved
  constructor
  · -- a violation that is left would not have its edit in the patch, which has all edits
    intro v hv
    have hspacing : ∀ e ∈ findings.patch.edits, e.replacement = Gap.spacing policy :=
      fun e he => h.replacement_eq hsource (Patch.mem_of_mem_ofList he)
    rw [Site.check?_eq_violation_iff hmoved.moved_liesIn,
      hmoved.violates_moved_iff hsite hspacing] at hv
    obtain ⟨v, hv, hedit, -⟩ := hv
    exact hedit ((h.mem_patch_iff hsource).2 ⟨site, hsite, v, hv, rfl⟩)
  · rw [Site.check?_eq_fault_iff hmoved.moved_liesIn, Site.check?_eq_fault_iff hsource.liesIn,
      hmoved.faulty_moved_iff hsite]

theorem length_faultsAt (source : Source) (policy : Policy) (sites : List Site) :
    (source.faultsAt policy sites).length = sites.countP fun site =>
      (site.fault? source.tokens source.code policy).isSome :=
  List.length_filterMap_eq_countP

theorem isSome_fault?_iff {s : TokenStream} {code : List Char} :
    (site.fault? s code policy).isSome = true ↔
      ∃ fault, site.check? s code policy = some (.error fault) := by
  rw [Site.fault?]
  rcases hc : site.check? s code policy with _ | fault | found <;> simp

end Source

namespace Command

variable {parser : Parser} {code : List Char} {tree : Tree}

/-- A fix of a text with a well formed, tight tree is final: if the parser gives the moved tree for
the result, then a check of the result reports nothing, as many sites cannot be checked as before,
and a second fix changes nothing. -/
theorem fixCode_idempotent (file : String) (policy : Policy) (hparse : parser code = some tree)
    (hwf : tree.WellFormed code) (htight : tree.Tight) (herr : tree.hasError = false) :
    ∃ source findings code', Fixes parser file policy code source findings code' ∧
      (parser code' = some (tree.moved findings.patch) →
        ∃ source' findings', Fixes parser file policy code' source' findings' code' ∧
          findings'.diagnostics = [] ∧ findings'.faults.length = findings.faults.length) := by
  obtain ⟨source, findings, code', tokens, hfixes, hsource, hreports, rfl, rfl, hout, htokens,
    hstream⟩ := exists_fixes file policy hparse hwf herr
  refine ⟨source, findings, code', hfixes, fun hparse' => ?_⟩
  have hrespacing := hreports.respacing hsource
  -- the second run sees the moved tree and the moved tokens
  have hmoved : source.tree.Respaced source.code tokens findings.patch code' :=
    ⟨hwf, htight, htokens, hstream ▸ hrespacing, hout⟩
  obtain ⟨source', findings', code'', tokens', hfixes', hsource', hreports', rfl, htree', hout',
    htokens', hstream'⟩ := exists_fixes file policy hparse' hmoved.wellFormed_moved herr
  have hstream'' : source'.tokens = source.tokens.moved findings.patch := by
    rw [hmoved.tokens?_moved, Option.some.injEq] at htokens'
    rw [hstream', hstream, ← htokens']
    rfl
  have hperm := Tree.Respaced.perm_sites_moved source.tree findings.patch
  rw [← htree'] at hperm
  have hnone : findings'.diagnostics = [] := by
    rw [hreports'.diagnostics_eq_nil_iff]
    apply List.eq_nil_iff_forall_not_mem.2
    intro v hv
    obtain ⟨site', hsite', hv⟩ := hsource'.mem_violationsAt_iff.1 hv
    obtain ⟨site, hsite, rfl⟩ := List.mem_map.1 (hperm.mem_iff.1 hsite')
    rw [← Site.check?_eq_violation_iff hsource'.liesIn, hstream''] at hv
    exact (hreports.settled hsource hstream hmoved hsite).1 v hv
  -- nothing is reported, so the second patch is empty
  obtain rfl : code'' = source'.code := (hreports'.eq_code_iff hsource' hout').2 hnone
  refine ⟨source', findings', hfixes', hnone, ?_⟩
  rw [hreports'.faults_eq, hreports.faults_eq, Source.length_faultsAt, Source.length_faultsAt,
    hperm.countP_eq, List.countP_map]
  apply List.countP_congr
  intro site hsite
  rw [Function.comp_apply, Source.isSome_fault?_iff, Source.isSome_fault?_iff, hstream'']
  exact (hreports.settled hsource hstream hmoved hsite).2

/-- The fix of `(f) (0)` under `never` deletes the space. -/
theorem fixes_groupedCode :
    ∃ source findings, Fixes groupedParser "a.js" .never Site.groupedCode source findings
        ['(', 'f', ')', '(', '0', ')'] ∧ findings.patch = ⟨[⟨⟨3, 4⟩, []⟩]⟩ := by
  obtain ⟨source, findings, code', tokens, hfixes, -, hreports, hcode, htree, hout, htokens,
    hstream⟩ := exists_fixes "a.js" .never groupedParser_groupedCode (by decide) rfl
  have htokens' : groupedTree.tokens? Site.groupedCode =
      some Site.groupedStream.tokens.toList := by decide
  have hstream' : source.tokens = Site.groupedStream := by
    rw [htokens', Option.some.injEq] at htokens
    rw [hstream, ← htokens]
    rfl
  have hsites : groupedTree.sites = [Site.groupedSite] := by decide +kernel
  have hviolation := (Site.violation?_eq_some_iff Site.groupedStream_liesIn).2
    Site.violates_groupedSite
  have hpatch : findings.patch = ⟨[⟨⟨3, 4⟩, []⟩]⟩ := by
    rw [Findings.patch, hreports.edits_eq, Source.violationsAt, hcode, htree, hstream', hsites]
    simp only [List.filterMap_cons, List.filterMap_nil, hviolation]
    decide +kernel
  refine ⟨source, findings, ?_, hpatch⟩
  rw [hpatch] at hout
  have hout' : (⟨[⟨⟨3, 4⟩, []⟩]⟩ : Patch).applied? Site.groupedCode =
      some ['(', 'f', ')', '(', '0', ')'] := by decide
  rw [hout', Option.some.injEq] at hout
  rw [hout]
  exact hfixes

/-- What the fix of `(f) (0)` gives is final. -/
theorem fixCode_idempotent_groupedCode :
    groupedTree.WellFormed Site.groupedCode ∧ groupedTree.Tight ∧
      ∃ source findings, Fixes groupedParser "a.js" .never ['(', 'f', ')', '(', '0', ')'] source
        findings ['(', 'f', ')', '(', '0', ')'] ∧ findings.diagnostics = [] := by
  have hwf : groupedTree.WellFormed Site.groupedCode := by decide
  have htight : groupedTree.Tight := by decide
  obtain ⟨source, findings, code', hfixes, hfinal⟩ :=
    fixCode_idempotent "a.js" .never groupedParser_groupedCode hwf htight rfl
  obtain ⟨source', findings', hfixes', hpatch⟩ := fixes_groupedCode
  obtain ⟨rfl, rfl, rfl⟩ := hfixes.unique hfixes'
  have hparse' : groupedParser ['(', 'f', ')', '(', '0', ')'] =
      some (groupedTree.moved findings.patch) := by
    rw [hpatch]
    rfl
  obtain ⟨source', findings', hfixes', hnone, -⟩ := hfinal hparse'
  exact ⟨hwf, htight, source', findings', hfixes', hnone⟩

end Command

end ParenGap
