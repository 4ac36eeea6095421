import Mathlib.Data.List.Perm.Basic
import Mathlib.Tactic
import ParenGap.Proofs.Fix.Idempotence
import ParenGap.Proofs.Fix.Runs

/-!
# A fix under one policy, seen by the other

After a fix every clean site has in its gap what the policy leaves there, and that is against the
other policy (`Moves.violates_other_iff`). The other sites have a token or stray text in their gap,
or cannot be checked, and stay so. A check under the other policy therefore reports the clean sites
one by one and nothing else (`fixCode_check_other`).
-/

set_option autoImplicit false

namespace ParenGap

open Text

/-- The diagnostic is about the site: it tells the kind of the call, and it is reported at the token
that ends the callee, where the patch has moved it. -/
structure Site.ReportedIn (site : Site) (s : TokenStream) (p : Patch) (defect : Defect)
    (d : Diagnostic) : Prop where
  defect_eq : d.defect = defect
  callKind_eq : d.callKind = some site.kind
  anchored : ∃ b t, s.boundary site.callee = .ok b ∧ s.get? b = some t ∧
    d.anchor?.map Region.span = some (p.movedSpan t.span)

namespace Source

variable {source source' : Source} {policy : Policy} {findings : Findings} {site : Site}
  {v' : Violation}

/-- After a fix the violations of the other policy are those at the joints with a blank gap. -/
theorem Moves.violates_other_iff (h : source.Moves findings.patch source')
    (hreports : source.Reports policy source.tree.sites findings) (hsource : source.Consistent)
    (hsite : site ∈ source.tree.sites) :
    (site.moved findings.patch).Violates source'.tokens source'.code policy.other v' ↔
      ∃ b t u text, site.JointText source.tokens source.code b t u text ∧
        (∀ c ∈ text, isBlank c = true) ∧
        v' = (site.violationAt policy.other t.span ⟨t.span.stop, u.span.start⟩).moved
          findings.patch := by
  rw [Site.violates_iff_mended h.liesIn.toInOrder, h.tokens_eq]
  constructor
  · rintro ⟨b, t', u', text', hjt', hblank', -, rfl⟩
    obtain ⟨t, u, text, hjt, rfl, rfl, rfl⟩ := (h.respaced.jointText_moved_iff hsite).1 hjt'
    exact ⟨b, t, u, text, hjt, (h.respaced.blank_put_iff hjt).1 hblank', rfl⟩
  · rintro ⟨b, t, u, text, hjt, hblank, rfl⟩
    have hblank' := (h.respaced.blank_put_iff hjt).2 hblank
    -- the gap holds what the policy leaves, and the other policy would leave something else
    have hput := hreports.put_eq hsource hsite hjt hblank
    refine ⟨b, _, _, _, h.respaced.jointText_moved hsite hjt, hblank', ?_, rfl⟩
    rw [hput]
    exact Gap.mended_other_ne policy text

/-- After a fix a clean site violates the other policy, and no other site does. -/
theorem Moves.violation?_other_rel (h : source.Moves findings.patch source')
    (hreports : source.Reports policy source.tree.sites findings) (hsource : source.Consistent)
    (hsite : site ∈ source.tree.sites) :
    Option.Rel (fun (site : Site) (v' : Violation) => v'.defect = policy.other.defect ∧
        v'.callKind = site.kind ∧ ∃ b t, source.tokens.boundary site.callee = .ok b ∧
          source.tokens.get? b = some t ∧ v'.anchor = findings.patch.movedSpan t.span)
      (Option.guard (fun site => decide (site.Clean source.tokens source.code)) site)
      ((site.moved findings.patch).violation? source'.tokens source'.code policy.other) := by
  have hclean : site.Clean source.tokens source.code ↔ _ :=
    Site.clean_iff_jointText hsource.liesIn
  cases hv : (site.moved findings.patch).violation? source'.tokens source'.code policy.other with
  | none =>
      have hnot : ¬ site.Clean source.tokens source.code := by
        intro hsome
        obtain ⟨b, t, u, text, hjt, hblank⟩ := hclean.1 hsome
        have hviolates := (h.violates_other_iff hreports hsource hsite).2
          ⟨b, t, u, text, hjt, hblank, rfl⟩
        rw [(Site.violation?_eq_some_iff h.liesIn).2 hviolates] at hv
        cases hv
      rw [Option.guard, if_neg (by simpa using hnot)]
      exact .none
  | some v' =>
      obtain ⟨b, t, u, text, hjt, hblank, rfl⟩ := (h.violates_other_iff hreports hsource hsite).1
        ((Site.violation?_eq_some_iff h.liesIn).1 hv)
      obtain ⟨-, -, -, hb⟩ := (Site.joint_eq_some_iff hsource.liesIn.toInOrder).1 hjt.1
      rw [Option.guard, if_pos (decide_eq_true (hclean.2 ⟨b, t, u, text, hjt, hblank⟩))]
      exact .some ⟨rfl, rfl, b, t, hb, hjt.2.1, rfl⟩

/-- After a fix the diagnostics of a check under the other policy are about the clean sites, one by
one. -/
theorem Moves.exists_perm_diagnostics {findings' : Findings}
    (h : source.Moves findings.patch source')
    (hreports : source.Reports policy source.tree.sites findings) (hsource : source.Consistent)
    (hreports' : source'.Reports policy.other source'.tree.sites findings') :
    ∃ ds : List Diagnostic, ds.Perm findings'.diagnostics ∧
      List.Forall₂
        (fun site d => site.ReportedIn source.tokens findings.patch policy.other.defect d)
        (source.tree.sites.filter fun site => site.Clean source.tokens source.code) ds := by
  -- the violations in the order of the sites of the first text
  have hperm : (source.tree.sites.filterMap fun site =>
      (site.moved findings.patch).violation? source'.tokens source'.code policy.other).Perm
        (source'.violationsAt policy.other source'.tree.sites) := by
    have hsites := h.perm_sites.symm.filterMap fun site =>
      site.violation? source'.tokens source'.code policy.other
    rw [List.filterMap_map] at hsites
    exact hsites
  obtain ⟨ds, hds, hdiagnostics⟩ := List.perm_comp_forall₂ hperm hreports'.diagnostics_of
  refine ⟨ds, hdiagnostics, ?_⟩
  have hsame : List.Forall₂ (fun site site' : Site => site = site' ∧ site ∈ source.tree.sites)
      source.tree.sites source.tree.sites :=
    List.forall₂_same.2 fun site hsite => ⟨rfl, hsite⟩
  have hclean := List.rel_filterMap (fun site site' hsite => by
    obtain ⟨rfl, hmem⟩ := hsite
    exact h.violation?_other_rel hreports hsource hmem) hsame
  rw [List.filterMap_eq_filter] at hclean
  refine (forall₂_comp hclean hds).imp ?_
  rintro site d ⟨v', ⟨hdefect, hkind, b, t, hb, ht, hanchor⟩, hd⟩
  obtain ⟨hdefect', hkind', hanchor'⟩ := Violation.diagnostic?_anchor hd
  rw [hkind] at hkind'
  rw [hanchor] at hanchor'
  exact ⟨hdefect'.trans hdefect, hkind', b, t, hb, ht, hanchor'⟩

end Source

namespace Command

variable {parser : Parser} {code : List Char} {tree : Tree}

/-- The two policies are symmetric: after a fix under one of them, if the parser gives the moved
tree for the result, a check under the other one reports every clean site once and nothing else. It
says that white space is missing if the fix was under `never`, and that there is some if it was
under `always`, and it is reported at the token that ends the callee. -/
theorem fixCode_check_other (file : String) (policy : Policy) (hparse : parser code = some tree)
    (hwf : tree.WellFormed code) (htight : tree.Tight) (herr : tree.hasError = false) :
    ∃ source findings code', Fixes parser file policy code source findings code' ∧
      (parser code' = some (tree.moved findings.patch) →
        ∃ source' findings', parseChecked parser file code' = .ok source' ∧
          source'.check? policy.other = some findings' ∧
          ∃ ds : List Diagnostic, ds.Perm findings'.diagnostics ∧
            List.Forall₂
              (fun site d => site.ReportedIn source.tokens findings.patch
                (match policy with
                  | .never => .missingSpace
                  | .always => .unexpectedSpace) d)
              (tree.sites.filter fun site => site.Clean source.tokens code) ds) := by
  obtain ⟨source, hsees, rfl⟩ := exists_sees file hparse hwf htight herr
  obtain ⟨findings, code', hfixes, hreports, hout⟩ := hsees.exists_fixes policy
  obtain rfl := hsees.code_eq
  refine ⟨source, findings, code', hfixes, ?_⟩
  intro hparse'
  have hsource := hsees.regular.consistent
  obtain ⟨source', hsees', hmoves⟩ := hsees.next (hreports.respacing hsource) hout hparse'
  obtain ⟨findings', hcheck', hreports'⟩ := hsees'.regular.consistent.exists_check? policy.other
  refine ⟨source', findings', hsees'.parsed, hcheck', ?_⟩
  have hdiagnostics := hmoves.exists_perm_diagnostics hreports hsource hreports'
  cases policy with
  | never => exact hdiagnostics
  | always => exact hdiagnostics

/-- In `(f)(0)`, what the fix of `(f) (0)` gives, the other policy reports the one call, after its
grouping parenthesis. -/
theorem fixCode_check_other_groupedCode :
    groupedTree.WellFormed Site.groupedCode ∧ groupedTree.Tight ∧
      ∃ source findings d, parseChecked groupedParser "a.js" ['(', 'f', ')', '(', '0', ')'] =
          .ok source ∧ source.check? .always = some findings ∧ findings.diagnostics = [d] ∧
        d.defect = .missingSpace ∧ d.callKind = some .call ∧
        d.anchor?.map Region.span = some ⟨2, 3⟩ := by
  have hwf : groupedTree.WellFormed Site.groupedCode := by decide
  have htight : groupedTree.Tight := by decide
  obtain ⟨source, findings, code', hfixes, hother⟩ :=
    fixCode_check_other "a.js" .never groupedParser_groupedCode hwf htight rfl
  obtain ⟨source', findings', hfixes', hpatch⟩ := fixes_groupedCode
  obtain ⟨rfl, rfl, rfl⟩ := hfixes.unique hfixes'
  have hparse' : groupedParser ['(', 'f', ')', '(', '0', ')'] =
      some (groupedTree.moved findings.patch) := by
    rw [hpatch]
    rfl
  obtain ⟨source', findings', hparsed, hcheck, ds, hperm, hds⟩ := hother hparse'
  -- the only site is clean
  obtain ⟨seen, hsees, -, hstream⟩ := sees_groupedCode
  obtain rfl := hsees.eq_of_parsed hfixes.parsed
  have hsites : groupedTree.sites = [Site.groupedSite] := by decide +kernel
  have hclean : ([Site.groupedSite].filter fun site =>
      decide (site.Clean Site.groupedStream Site.groupedCode)) = [Site.groupedSite] := by
    rw [List.filter_singleton, decide_eq_true Site.clean_groupedSite]
    rfl
  rw [hsites, hstream, hclean, hpatch] at hds
  cases hds with
  | cons hd hnil =>
      cases hnil
      obtain ⟨hdefect, hkind, b, t, hb, ht, hanchor⟩ := hd
      rw [Site.boundary_groupedSite, Except.ok.injEq] at hb
      obtain rfl : _ = t := Option.some.inj (hb ▸ ht)
      exact ⟨hwf, htight, source', findings', _, hparsed, hcheck, List.perm_singleton.1 hperm.symm,
        hdefect, hkind, hanchor⟩

end Command

end ParenGap
