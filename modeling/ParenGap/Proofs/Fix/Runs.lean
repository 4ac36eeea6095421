import Mathlib.Tactic
import ParenGap.Proofs.Fix.Frame
import ParenGap.Proofs.Fix.Sites

/-!
# One run after another

A run sees a text through its source (`Sees`). A patch that respaces the text takes the source to
that of the result (`Source.Moves`), provided that the parser gives the moved tree for the result;
the next run sees that source (`Sees.next`). The sites of the second source are the moved sites, and
the violations that are left are the moved ones (`Moves.perm_violationsAt`).

The patch of a check leaves in the gap of every clean site what the policy leaves of it
(`Reports.put_eq`).
-/

set_option autoImplicit false

namespace ParenGap

open Text

namespace Source

/-- The text has a well formed, tight tree, and the tokens are those of the tree. -/
structure Regular (source : Source) : Prop where
  consistent : source.Consistent
  wellFormed : source.tree.WellFormed source.code
  tight : source.tree.Tight
  tokens_eq : source.tree.tokens? source.code = some source.tokens.tokens.toList

/-- The second source is what a patch that respaces the text makes of the first one. -/
structure Moves (source : Source) (p : Patch) (source' : Source) : Prop where
  respaced : source.tree.Respaced source.code source.tokens.tokens.toList p source'.code
  tree_eq : source'.tree = source.tree.moved p
  tokens_eq : source'.tokens = source.tokens.moved p

variable {source source' : Source} {p : Patch} {out : List Char} {policy : Policy}
  {findings : Findings} {site : Site}

theorem Regular.respaced (h : source.Regular) (hp : p.Respacing source.tokens source.code)
    (hout : p.applied? source.code = some out) :
    source.tree.Respaced source.code source.tokens.tokens.toList p out := by
  refine ⟨h.wellFormed, h.tight, h.tokens_eq, ?_, hout⟩
  rw [TokenStream.ofList_toList]
  exact hp

namespace Moves

theorem liesIn (h : source.Moves p source') : source'.tokens.LiesIn source'.code := by
  rw [h.tokens_eq]
  exact h.respaced.moved_liesIn

/-- The sites are the moved sites, up to the order in which they are visited. -/
theorem perm_sites (h : source.Moves p source') :
    source'.tree.sites.Perm (source.tree.sites.map (Site.moved p)) := by
  rw [h.tree_eq]
  exact Tree.Respaced.perm_sites_moved source.tree p

/-- If the patch puts in what a policy asks for, the violations of the policy that are left are
those whose edit is not made. -/
theorem perm_violationsAt (h : source.Moves p source')
    (hp : ∀ e ∈ p.edits, e.replacement = Gap.spacing policy) :
    (source'.violationsAt policy source'.tree.sites).Perm
      (((source.violationsAt policy source.tree.sites).filter fun v => v.edit ∉ p.edits).map
        (Violation.moved p)) := by
  refine (h.perm_sites.filterMap _).trans (List.Perm.of_eq ?_)
  rw [List.filterMap_map, violationsAt, List.filter_filterMap, List.map_filterMap]
  apply List.filterMap_congr
  intro site hsite
  -- site by site, a violation is left if its edit is not made
  ext v'
  rw [Function.comp_apply, Site.violation?_eq_some_iff h.liesIn, h.tokens_eq,
    h.respaced.violates_moved_iff hsite hp]
  simp only [Option.map_eq_some_iff, Option.filter_eq_some_iff,
    Site.violation?_eq_some_iff h.respaced.stream_liesIn, decide_eq_true_eq]
  constructor
  · rintro ⟨v, hv, hedit, rfl⟩
    exact ⟨v, ⟨hv, hedit⟩, rfl⟩
  · rintro ⟨v, ⟨hv, hedit⟩, rfl⟩
    exact ⟨v, hv, hedit, rfl⟩

end Moves

/-- The patch of a check leaves in a blank gap at a joint what the policy leaves of it. -/
theorem Reports.put_eq {sites : List Site} {b : Nat} {t u : Token} {text : List Char}
    (h : source.Reports policy sites findings) (hsource : source.Consistent) (hsite : site ∈ sites)
    (hjt : site.JointText source.tokens source.code b t u text)
    (hblank : ∀ c ∈ text, isBlank c = true) :
    findings.patch.put ⟨t.span.stop, u.span.start⟩ text = Gap.mended policy text := by
  have horder := hsource.liesIn.toInOrder
  by_cases heq : Gap.mended policy text = text
  · rw [heq]
    apply Patch.put_of_not_mem
    intro e he hspan
    -- an edit of the gap comes from a violation, which finds the same text in it
    obtain ⟨other, -, v, hv, rfl⟩ := (h.mem_patch_iff hsource).1 he
    rw [hv.edit_eq] at hspan
    obtain ⟨b', t', u', text', ⟨-, -, -, htext'⟩, -, hne, rfl⟩ :=
      (Site.violates_iff_mended horder).1 hv
    obtain ⟨hstop, hstart⟩ := Span.mk.injEq _ _ _ _ ▸ hspan
    rw [hstop, hstart, hjt.2.2.2, Option.some.injEq] at htext'
    exact hne (htext' ▸ heq)
  · have hv : site.Violates source.tokens source.code policy
        (site.violationAt policy t.span ⟨t.span.stop, u.span.start⟩) :=
      (Site.violates_iff_mended horder).2 ⟨b, t, u, text, hjt, hblank, heq, rfl⟩
    have hedit := (h.mem_patch_iff hsource).2 ⟨site, hsite, _, hv, rfl⟩
    rw [Gap.mended_eq_spacing heq]
    exact (h.respacing hsource).put_of_mem hedit text

end Source

namespace Command

/-- A run sees a text without a syntax error as a source with a tight tree. -/
structure Sees (parser : Parser) (file : String) (code : List Char) (source : Source) : Prop where
  parsed : parseChecked parser file code = .ok source
  code_eq : source.code = code
  regular : source.Regular
  noError : source.tree.hasError = false

variable {parser : Parser} {file : String} {code out : List Char} {tree : Tree}
  {source source' : Source} {p : Patch}

/-- A run sees a text whose tree is well formed and tight. -/
theorem exists_sees (file : String) (hparse : parser code = some tree) (hwf : tree.WellFormed code)
    (htight : tree.Tight) (herr : tree.hasError = false) :
    ∃ source, Sees parser file code source ∧ source.tree = tree := by
  obtain ⟨source, tokens, hparsed, hconsistent, rfl, rfl, htokens, hstream⟩ :=
    exists_parseChecked file hparse hwf herr
  refine ⟨source, ⟨hparsed, rfl, ⟨hconsistent, hwf, htight, ?_⟩, herr⟩, rfl⟩
  rw [htokens, hstream]
  rfl

theorem Sees.eq_of_parsed (h : Sees parser file code source)
    (hparsed : parseChecked parser file code = .ok source') : source = source' :=
  Except.ok.inj (h.parsed.symm.trans hparsed)

/-- What a run sees can be fixed. -/
theorem Sees.exists_fixes (h : Sees parser file code source) (policy : Policy) :
    ∃ findings out, Fixes parser file policy code source findings out ∧
      source.Reports policy source.tree.sites findings ∧
      findings.patch.applied? source.code = some out :=
  exists_fixes_of_parseChecked h.parsed h.regular.consistent policy

/-- The next run sees the moved source, if the parser gives the moved tree. -/
theorem Sees.next (h : Sees parser file code source) (hp : p.Respacing source.tokens source.code)
    (hout : p.applied? source.code = some out) (hparse : parser out = some (source.tree.moved p)) :
    ∃ source', Sees parser file out source' ∧ source.Moves p source' := by
  have hrespaced := h.regular.respaced hp hout
  obtain ⟨source', hsees, htree⟩ :=
    exists_sees file hparse hrespaced.wellFormed_moved hrespaced.tight_moved h.noError
  refine ⟨source', hsees, ?_, htree, ?_⟩
  · rw [hsees.code_eq]
    exact hrespaced
  · have htokens := hsees.regular.tokens_eq
    rw [htree, hsees.code_eq, hrespaced.tokens?_moved, Option.some.injEq] at htokens
    rw [← TokenStream.ofList_toList source'.tokens, ← htokens]
    rfl

/-- What a run sees of `(f) (0)`. -/
theorem sees_groupedCode :
    ∃ source, Sees groupedParser "a.js" Site.groupedCode source ∧ source.tree = groupedTree ∧
      source.tokens = Site.groupedStream := by
  obtain ⟨source, hsees, htree⟩ := exists_sees "a.js" groupedParser_groupedCode (by decide)
    (by decide) rfl
  have htokens : groupedTree.tokens? Site.groupedCode =
      some Site.groupedStream.tokens.toList := by decide
  refine ⟨source, hsees, htree, TokenStream.eq_of_tokens_eq (Array.toList_inj.1 ?_)⟩
  have htokens' := hsees.regular.tokens_eq
  rw [htree, hsees.code_eq, htokens, Option.some.injEq] at htokens'
  exact htokens'.symm

end Command

end ParenGap
