import Mathlib.Tactic
import ParenGap.Proofs.Fix.Idempotence
import ParenGap.Proofs.Fix.Runs

/-!
# Fixes one after another

A fix leaves the tokens and, between them, the spaces that are not the gap of a clean site; in the
gaps of the clean sites it leaves what its policy leaves of them (`Reports.space?_of_cleanAt`). The
clean sites stay the same. So a second fix makes up for the first one if what its policy leaves of a
gap does not depend on whether the first policy has been there before (`Sees.fixCode_of_fixes`):
`never` makes up for anything, and `always` for `always`. A sequence of fixes therefore comes to one
fix, or to one under `never` and one under `always` (`fixCode_collapses`).
-/

set_option autoImplicit false

namespace ParenGap

open Text

namespace Source

/-- Space `i` is the gap of a clean site. -/
def CleanAt (source : Source) (i : Nat) : Prop :=
  ∃ site ∈ source.tree.sites, ∃ b t u text,
    site.JointText source.tokens source.code b t u text ∧ (∀ c ∈ text, isBlank c = true) ∧
      i = b + 1

variable {source source' : Source} {p : Patch} {policy policy' : Policy}
  {findings findings' found : Findings} {out out' text : List Char} {i : Nat}

/-- A patch that respaces the text leaves the clean sites what they are. -/
theorem Moves.cleanAt_iff (h : source.Moves p source') : source'.CleanAt i ↔ source.CleanAt i := by
  constructor
  · rintro ⟨site', hsite', b, t', u', text', hjt', hblank', rfl⟩
    obtain ⟨site, hsite, rfl⟩ := List.mem_map.1 (h.perm_sites.mem_iff.1 hsite')
    rw [h.tokens_eq] at hjt'
    obtain ⟨t, u, text, hjt, rfl, rfl, rfl⟩ := (h.respaced.jointText_moved_iff hsite).1 hjt'
    exact ⟨site, hsite, b, t, u, text, hjt, (h.respaced.blank_put_iff hjt).1 hblank', rfl⟩
  · rintro ⟨site, hsite, b, t, u, text, hjt, hblank, rfl⟩
    have hsite' := h.perm_sites.mem_iff.2 (List.mem_map_of_mem hsite)
    have hjt' := h.respaced.jointText_moved hsite hjt
    rw [← h.tokens_eq] at hjt'
    exact ⟨_, hsite', b, _, _, _, hjt', (h.respaced.blank_put_iff hjt).2 hblank, rfl⟩

/-- A fix leaves in the gap of a clean site what its policy leaves of it. -/
theorem Reports.space?_of_cleanAt (h : source.Reports policy source.tree.sites findings)
    (hsource : source.Consistent) (hout : findings.patch.applied? source.code = some out)
    (hclean : source.CleanAt i) (htext : source.tokens.space? source.code i = some text) :
    (source.tokens.moved findings.patch).space? out i = some (Gap.mended policy text) := by
  rw [(h.respacing hsource).space?_moved hsource.liesIn hout htext]
  obtain ⟨site, hsite, b, t, u, text', hjt, hblank, rfl⟩ := hclean
  obtain ⟨-, ht, hu, htext'⟩ := id hjt
  rw [TokenStream.space?_succ source.code ht hu, htext', Option.some.injEq] at htext
  rw [TokenStream.spaceSpan_succ source.code ht hu, ← htext, h.put_eq hsource hsite hjt hblank]

/-- A fix leaves the other spaces as they are. -/
theorem Reports.space?_of_not_cleanAt (h : source.Reports policy source.tree.sites findings)
    (hsource : source.Consistent) (hout : findings.patch.applied? source.code = some out)
    (hclean : ¬ source.CleanAt i) (htext : source.tokens.space? source.code i = some text) :
    (source.tokens.moved findings.patch).space? out i = some text := by
  rw [(h.respacing hsource).space?_moved hsource.liesIn hout htext, Patch.put_of_not_mem]
  intro e he hspan
  -- an edit is made in the gap of a clean site, and no other space stops where this gap stops
  obtain ⟨site, hsite, v, hv, rfl⟩ := (h.mem_patch_iff hsource).1 he
  obtain ⟨b, t, u, text', hjt, hblank, -, rfl⟩ :=
    (Site.violates_iff_mended hsource.liesIn.toInOrder).1 hv
  have hi := hsource.liesIn.eq_of_spaceStop_eq (TokenStream.le_size_of_space? htext) hjt.2.2.1
    (congrArg Span.stop hspan).symm
  exact hclean ⟨site, hsite, b, t, u, text', hjt, hblank, hi⟩

/-- A fix after a fix gives what it gives on the first text, if what its policy leaves of a gap does
not depend on the first policy. -/
theorem Moves.fixed_eq (h : source.Moves findings.patch source')
    (hsource : source.Consistent) (hsource' : source'.Consistent)
    (hreports : source.Reports policy source.tree.sites findings)
    (hreports' : source'.Reports policy' source'.tree.sites findings')
    (hfound : source.Reports policy' source.tree.sites found)
    (hout' : findings'.patch.applied? source'.code = some out')
    (hout : found.patch.applied? source.code = some out)
    (hmended : ∀ text, Gap.mended policy' (Gap.mended policy text) = Gap.mended policy' text) :
    out = out' := by
  have hp := hfound.respacing hsource
  have hp' := hreports'.respacing hsource'
  have halike : (source.tokens.moved found.patch).Alike (source'.tokens.moved findings'.patch) := by
    have hfirst := h.respaced.stream_alike
    rw [← h.tokens_eq] at hfirst
    exact ((hp.alike_moved hsource.liesIn hout).symm.trans hfirst).trans
      (hp'.alike_moved hsource'.liesIn hout')
  refine ((hp.liesIn_moved hsource.liesIn hout).eq_of_spaces
    (hp'.liesIn_moved hsource'.liesIn hout') halike ?_).1
  intro i spaced hspaced
  -- both results have the same in every space, by what the text had there
  have hi := TokenStream.le_size_of_space? hspaced
  rw [← (hp.alike_moved hsource.liesIn hout).size_eq] at hi
  obtain ⟨text, htext⟩ := hsource.liesIn.exists_space? hi
  by_cases hclean : source.CleanAt i
  · rw [hfound.space?_of_cleanAt hsource hout hclean htext, Option.some.injEq] at hspaced
    have hbetween := hreports.space?_of_cleanAt hsource h.respaced.applied hclean htext
    rw [← h.tokens_eq] at hbetween
    rw [hreports'.space?_of_cleanAt hsource' hout' (h.cleanAt_iff.2 hclean) hbetween, hmended,
      hspaced]
  · rw [hfound.space?_of_not_cleanAt hsource hout hclean htext, Option.some.injEq] at hspaced
    have hbetween := hreports.space?_of_not_cleanAt hsource h.respaced.applied hclean htext
    rw [← h.tokens_eq] at hbetween
    have hclean' : ¬ source'.CleanAt i := fun hclean' => hclean (h.cleanAt_iff.1 hclean')
    rw [hreports'.space?_of_not_cleanAt hsource' hout' hclean' hbetween, hspaced]

end Source

namespace Command

variable {parser : Parser} {file : String} {code code' : List Char} {tree : Tree}
  {source source' : Source} {policy : Policy} {findings : Findings}

/-- A fix after a fix gives what it gives on the first text, if what its policy leaves of a gap does
not depend on the first policy. -/
theorem Sees.fixCode_of_fixes (h : Sees parser file code source)
    (hfixes : Fixes parser file policy code source findings code')
    (h' : Sees parser file code' source') (hmoves : source.Moves findings.patch source')
    (policy' : Policy)
    (hmended : ∀ text, Gap.mended policy' (Gap.mended policy text) = Gap.mended policy' text) :
    fixCode parser file policy' code' = fixCode parser file policy' code := by
  have hsource := h.regular.consistent
  have hsource' := h'.regular.consistent
  obtain ⟨findings₁, out₁, hfixes₁, hreports₁, -⟩ := h.exists_fixes policy
  obtain ⟨-, rfl, -⟩ := hfixes.unique hfixes₁
  obtain ⟨findings₂, out₂, hfixes₂, hreports₂, hout₂⟩ := h'.exists_fixes policy'
  obtain ⟨found, out, hfixes₃, hfound, hout⟩ := h.exists_fixes policy'
  rw [hfixes₂.fixed, hfixes₃.fixed,
    hmoves.fixed_eq hsource hsource' hreports₁ hreports₂ hfound hout₂ hout hmended]

/-- The parser follows a sequence of fixes: it gives the tree for the text, and the moved tree for
the result of every fix but the last. -/
def Follows (parser : Parser) (file : String) : List Policy → List Char → Tree → Prop
  | [], _, _ => True
  | policy :: rest, code, tree =>
      parser code = some tree ∧ ∀ source findings code',
        Fixes parser file policy code source findings code' →
          Follows parser file rest code' (tree.moved findings.patch)

/-- What a sequence of fixes comes to. If the last one is under `never`, it alone gives the result;
if all are under `always`, one of them does. If the last one is under `always` and some other is
under `never`, then one fix under `never` and one under `always` do (`both`). -/
structure Collapses (parser : Parser) (file : String) (policies : List Policy)
    (code out : List Char) : Prop where
  never : policies.getLast? = some .never → fixCode parser file .never code = .ok out
  always : (∀ policy ∈ policies, policy = .always) → fixCode parser file .always code = .ok out
  both : policies.getLast? = some .always → Policy.never ∈ policies →
    (fixCode parser file .never code).bind (fixCode parser file .always) = .ok out

/-- A fix before a sequence of fixes changes nothing but that it counts for it. -/
theorem Collapses.cons {first : Policy} {rest : List Policy} {out : List Char}
    (h : Collapses parser file rest code' out) (hrest : rest ≠ [])
    (hfirst : fixCode parser file first code = .ok code')
    (hfix : ∀ policy : Policy,
      (∀ text, Gap.mended policy (Gap.mended first text) = Gap.mended policy text) →
        fixCode parser file policy code' = fixCode parser file policy code) :
    Collapses parser file (first :: rest) code out := by
  have hnever := hfix .never fun _ => rfl
  have hlast : (first :: rest).getLast? = rest.getLast? := by
    obtain ⟨second, others, rfl⟩ := List.exists_cons_of_ne_nil hrest
    rfl
  constructor
  · intro hlast'
    rw [← hnever]
    exact h.never (hlast ▸ hlast')
  · intro hall
    have heq : first = .always := hall first List.mem_cons_self
    rw [← hfix .always fun text => by rw [heq, Gap.mended_mended]]
    exact h.always fun policy hpolicy => hall policy (List.mem_cons_of_mem _ hpolicy)
  · intro hlast' hmem
    by_cases hrest' : Policy.never ∈ rest
    · rw [← hnever]
      exact h.both (hlast ▸ hlast') hrest'
    · -- the first fix is the only one under `never`
      have heq : first = .never := by
        rcases List.mem_cons.1 hmem with heq | hmem
        · exact heq.symm
        · exact absurd hmem hrest'
      have hall : ∀ policy ∈ rest, policy = .always := by
        intro policy hpolicy
        cases policy with
        | never => exact absurd hpolicy hrest'
        | always => rfl
      rw [heq] at hfirst
      rw [hfirst]
      exact h.always hall

theorem collapses_singleton (h : fixCode parser file policy code = .ok code') :
    Collapses parser file [policy] code code' := by
  constructor
  · intro hlast
    obtain rfl : policy = .never := Option.some.inj hlast
    exact h
  · intro hall
    obtain rfl : policy = .always := hall policy List.mem_cons_self
    exact h
  · intro hlast hmem
    obtain rfl : policy = .always := Option.some.inj hlast
    cases List.mem_singleton.1 hmem

/-- A sequence of fixes of what a run sees collapses. -/
theorem Sees.collapses {policies : List Policy} (h : Sees parser file code source)
    (hfollows : Follows parser file policies code source.tree) (hne : policies ≠ []) :
    ∃ out, policies.foldlM (fun code policy => fixCode parser file policy code) code = .ok out ∧
      Collapses parser file policies code out := by
  induction policies generalizing code source with
  | nil => exact absurd rfl hne
  | cons first rest ih =>
      obtain ⟨findings, code', hfixes, hreports, hout⟩ := h.exists_fixes first
      have hrest := hfollows.2 source findings code' hfixes
      rw [List.foldlM_cons, hfixes.fixed]
      cases rest with
      | nil => exact ⟨code', rfl, collapses_singleton hfixes.fixed⟩
      | cons second others =>
          -- the parser gives the moved tree, so that the other fixes start from what a run sees
          obtain ⟨source', h', hmoves⟩ :=
            h.next (hreports.respacing h.regular.consistent) hout hrest.1
          rw [← hmoves.tree_eq] at hrest
          obtain ⟨out, hfold, hcollapses⟩ := ih h' hrest (List.cons_ne_nil _ _)
          exact ⟨out, hfold, hcollapses.cons (List.cons_ne_nil _ _) hfixes.fixed
            (h.fixCode_of_fixes hfixes h' hmoves)⟩

/-- A fix of `(f) (0)` under `always` changes nothing. -/
theorem fixes_always_groupedCode {source : Source} {findings : Findings} {code' : List Char}
    (h : Fixes groupedParser "a.js" .always Site.groupedCode source findings code') :
    code' = Site.groupedCode ∧ findings.patch = ⟨[]⟩ := by
  obtain ⟨seen, hsees, htree, hstream⟩ := sees_groupedCode
  obtain ⟨found, out, hfixes, hreports, hout⟩ := hsees.exists_fixes .always
  obtain ⟨rfl, rfl, rfl⟩ := h.unique hfixes
  have hsites : groupedTree.sites = [Site.groupedSite] := by decide +kernel
  have hnone : source.violationsAt .always source.tree.sites = [] := by
    apply List.eq_nil_iff_forall_not_mem.2
    intro v hv
    obtain ⟨site, hsite, hv⟩ := hsees.regular.consistent.mem_violationsAt_iff.1 hv
    rw [htree, hsites, List.mem_singleton] at hsite
    obtain rfl := hsite
    rw [hstream, hsees.code_eq] at hv
    -- the gap that `never` reports is not empty
    have hgap : v.gap = ⟨3, 4⟩ := by
      obtain ⟨o, b, t, text, ho, -, hb, ht, -, -, -, -, hgap, -⟩ := hv
      rw [Site.boundary_groupedSite, Except.ok.injEq] at hb
      obtain rfl := hb
      obtain rfl := Option.some.inj ho
      obtain rfl := Option.some.inj ht
      exact hgap
    have hempty := hv.gap_start_eq_stop
    rw [hgap] at hempty
    cases hempty
  have hnone' := hreports.diagnostics_eq_nil_iff.2 hnone
  have hedits := (hreports.patch_edits_eq_nil_iff hsees.regular.consistent).2 hnone'
  refine ⟨?_, congrArg Patch.mk hedits⟩
  rw [← hsees.code_eq]
  exact (hreports.eq_code_iff hsees.regular.consistent hout).2 hnone'

/-- Sequences of fixes collapse: if the parser gives the moved tree after every fix, then any number
of fixes under any policies gives what a fix under `never` gives if the last one is under `never`,
what a fix under `always` gives if all are under `always`, and what a fix under `never` and one
under `always` give if the last one is under `always` but not all are. -/
theorem fixCode_collapses (file : String) {policies : List Policy} (hne : policies ≠ [])
    (hfollows : Follows parser file policies code tree) (hwf : tree.WellFormed code)
    (htight : tree.Tight) (herr : tree.hasError = false) :
    ∃ out, policies.foldlM (fun code policy => fixCode parser file policy code) code = .ok out ∧
      Collapses parser file policies code out := by
  have hparse : parser code = some tree := by
    cases policies with
    | nil => exact absurd rfl hne
    | cons first rest => exact hfollows.1
  obtain ⟨source, hsees, rfl⟩ := exists_sees file hparse hwf htight herr
  exact hsees.collapses hfollows hne

/-- A fix of `(f) (0)` under `always` and one under `never` give `(f)(0)`. -/
theorem fixCode_collapses_groupedCode :
    [Policy.always, .never] ≠ [] ∧
      Follows groupedParser "a.js" [.always, .never] Site.groupedCode groupedTree ∧
      groupedTree.WellFormed Site.groupedCode ∧ groupedTree.Tight ∧
      [Policy.always, .never].foldlM (fun code policy => fixCode groupedParser "a.js" policy code)
        Site.groupedCode = .ok ['(', 'f', ')', '(', '0', ')'] := by
  have hwf : groupedTree.WellFormed Site.groupedCode := by decide
  have htight : groupedTree.Tight := by decide
  have hne : [Policy.always, .never] ≠ [] := List.cons_ne_nil _ _
  have hfollows : Follows groupedParser "a.js" [.always, .never] Site.groupedCode groupedTree := by
    refine ⟨groupedParser_groupedCode, ?_⟩
    intro source findings code' hfixes
    obtain ⟨rfl, hpatch⟩ := fixes_always_groupedCode hfixes
    refine ⟨?_, fun _ _ _ _ => trivial⟩
    rw [hpatch, groupedParser_groupedCode]
    rfl
  obtain ⟨out, hfold, hcollapses⟩ := fixCode_collapses "a.js" hne hfollows hwf htight rfl
  obtain ⟨source, findings, hfixes, -⟩ := fixes_groupedCode
  have hout := hcollapses.never rfl
  rw [hfixes.fixed] at hout
  exact ⟨hne, hfollows, hwf, htight, hfold.trans hout.symm⟩

end Command

end ParenGap
