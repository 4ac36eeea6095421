import Mathlib.Data.List.Dedup
import Mathlib.Tactic
import ParenGap.Proofs.Fix.Frame

/-!
# Edits that do not collide

A violation determines its parenthesis, and the parenthesis determines the gap and the edit
(`Violates.eq_of_argumentsStart_eq`). Gaps before different parentheses lie apart
(`Violates.apart_of_argumentsStart_ne`). So no two edits of a check collide, and the patch that they
make in any order keeps one edit for every reported gap; if no two sites have the same parenthesis,
it has an edit for every diagnostic (`Source.edits_apart`).
-/

set_option autoImplicit false

namespace ParenGap

open TokenStream

/-- A callee ends with its last token if the next token is code and does not close a parenthesis. -/
theorem TokenStream.InOrder.boundary_of_next {s : TokenStream} {callee : Span} {b : Nat}
    {t u : Token} (h : s.InOrder) (ht : s.get? b = some t) (hstop : t.span.stop = callee.stop)
    (hu : s.get? (b + 1) = some u) (hcode : u.isComment = false) (hcloses : u.closes = false) :
    s.boundary callee = .ok b := by
  have hnext := h.codeAfter?_stop_of_next ht hu hcode
  have hnone : s.grouping? callee.start b = none := by
    apply grouping?_eq_none_of_next ht
    intro i v hi hv
    obtain rfl : b + 1 = i := Option.some.inj (hnext.symm.trans hi)
    obtain rfl : u = v := Option.some.inj (hu.symm.trans hv)
    exact hcloses
  rw [h.boundary_eq_ok ht hstop, outermost_eq_self hnone]

section Violations

variable {s : TokenStream} {code : List Char} {policy : Policy} {site site' : Site}
  {v v' : Violation}

/-- The gap of a violation stops where the argument list starts. -/
theorem Site.Violates.argumentsStart_eq (hv : site.Violates s code policy v) :
    site.argumentsStart = some v.gap.stop := by
  obtain ⟨o, b, t, text, ho, -, -, -, -, -, -, -, hgap, -⟩ := hv
  rw [ho, hgap]

theorem Site.Violates.gap_start_le_stop (hv : site.Violates s code policy v) :
    v.gap.start ≤ v.gap.stop := by
  obtain ⟨b, -, hb⟩ := hv.respaces
  have hle := hb.start_le_stop
  rw [hv.edit_eq] at hle
  exact hle

/-- Gaps of violations are equal, or lie apart. -/
theorem Site.Violates.gap_eq_or_apart (hv : site.Violates s code policy v)
    (hv' : site'.Violates s code policy v') (hs : s.InOrder) :
    v.gap = v'.gap ∨ v.gap.stop < v'.gap.start ∨ v'.gap.stop < v.gap.start := by
  have hcases := hv.eq_or_apart hv' hs
  rw [hv.edit_eq, hv'.edit_eq, Edit.mk.injEq] at hcases
  exact hcases.imp_left And.left

/-- Violations before the same parenthesis have the same gap and the same edit. -/
theorem Site.Violates.eq_of_argumentsStart_eq (hv : site.Violates s code policy v)
    (hv' : site'.Violates s code policy v') (hs : s.InOrder)
    (h : site.argumentsStart = site'.argumentsStart) : v.gap = v'.gap ∧ v.edit = v'.edit := by
  rw [hv.argumentsStart_eq, hv'.argumentsStart_eq, Option.some.injEq] at h
  -- gaps that lie apart stop at different offsets
  have hgap : v.gap = v'.gap := by
    have hle := hv.gap_start_le_stop
    have hle' := hv'.gap_start_le_stop
    rcases hv.gap_eq_or_apart hv' hs with heq | hlt | hlt
    · exact heq
    · omega
    · omega
  refine ⟨hgap, ?_⟩
  rw [hv.edit_eq, hv'.edit_eq, hgap]

/-- Gaps before different parentheses lie apart. -/
theorem Site.Violates.apart_of_argumentsStart_ne (hv : site.Violates s code policy v)
    (hv' : site'.Violates s code policy v') (hs : s.InOrder)
    (h : site.argumentsStart ≠ site'.argumentsStart) :
    v.gap.stop < v'.gap.start ∨ v'.gap.stop < v.gap.start := by
  rw [hv.argumentsStart_eq, hv'.argumentsStart_eq] at h
  rcases hv.gap_eq_or_apart hv' hs with heq | hapart
  · rw [heq] at h
    exact absurd rfl h
  · exact hapart

end Violations

namespace Source

variable {file : String} {code : List Char} {tree : Tree} {source : Source} {policy : Policy}
  {sites : List Site} {findings : Findings}

/-- A source made of a tree is consistent if its tokens are in order. -/
theorem consistent_of_ofTree? (h : ofTree? file code tree = some source)
    (horder : source.tokens.InOrder) : source.Consistent := by
  obtain ⟨s, hs, rfl⟩ := Option.map_eq_some_iff.1 h
  obtain ⟨tokens, htokens, rfl⟩ := TokenStream.ofTree?_eq_some_iff.1 hs
  exact ⟨rfl, horder, fun t ht => Tree.slice?_of_mem_tokens htokens ht⟩

/-- The edits of a check make the same patch in any order. -/
theorem Reports.ofList_eq_patch (h : source.Reports policy sites findings)
    (hsource : source.Consistent) {edits : List Edit} (hperm : edits.Perm findings.edits) :
    Patch.ofList edits = findings.patch :=
  (h.setApart hsource).ofList_eq_of_mem_iff fun _ => hperm.mem_iff

/-- If no two sites have the same parenthesis, no two violations have the same gap. -/
theorem Consistent.nodup_gaps (hsource : source.Consistent) (policy : Policy)
    (hsites : (sites.filterMap Site.argumentsStart).Nodup) :
    ((source.violationsAt policy sites).map Violation.gap).Nodup := by
  have hstop : ∀ (site : Site) (v : Violation),
      site.violation? source.tokens source.code policy = some v →
        site.argumentsStart = some v.gap.stop := by
    intro site v hv
    exact ((Site.violation?_eq_some_iff hsource.liesIn).1 hv).argumentsStart_eq
  rw [List.nodup_iff_pairwise_ne, List.pairwise_filterMap] at hsites
  rw [List.nodup_iff_pairwise_ne, List.pairwise_map, violationsAt, List.pairwise_filterMap]
  refine hsites.imp fun {site site'} hne v hv v' hv' hgap => ?_
  exact hne _ (hstop site v hv) _ (hstop site' v' hv') (congrArg Span.stop hgap)

/-- If no two sites have the same parenthesis, the patch has an edit for every diagnostic. -/
theorem Reports.size_patch (h : source.Reports policy sites findings) (hsource : source.Consistent)
    (hsites : (sites.filterMap Site.argumentsStart).Nodup) :
    findings.patch.size = findings.diagnostics.length := by
  have hperm := h.perm_dedup_gaps hsource
  have hnodup := hsource.nodup_gaps policy hsites
  rw [h.gaps_eq, hnodup.dedup] at hperm
  have hlen := hperm.length_eq
  rw [List.length_map, List.length_map, h.diagnostics_of.length_eq] at hlen
  exact hlen

/-! ## A call in the arguments of a call -/

/-- The text `f (g (0))`. -/
def innerCallCode : List Char := ['f', ' ', '(', 'g', ' ', '(', '0', ')', ')']

/-- The tree of `f (g (0))`. -/
def innerCallTree : Tree where
  root := ⟨"program", ⟨0, 9⟩, true, false, none,
    [⟨"expression_statement", ⟨0, 9⟩, true, false, none,
      [⟨"call_expression", ⟨0, 9⟩, true, false, none,
        [⟨"identifier", ⟨0, 1⟩, true, false, some .function, []⟩,
          ⟨"arguments", ⟨2, 9⟩, true, false, some .arguments,
            [.mark "(" 2,
              ⟨"call_expression", ⟨3, 8⟩, true, false, none,
                [⟨"identifier", ⟨3, 4⟩, true, false, some .function, []⟩,
                  ⟨"arguments", ⟨5, 8⟩, true, false, some .arguments,
                    [.mark "(" 5, ⟨"number", ⟨6, 7⟩, true, false, none, []⟩, .mark ")" 7]⟩]⟩,
              .mark ")" 8]⟩]⟩]⟩]⟩
  hasError := false

/-- The tokens of `f (g (0))`. -/
def innerCallStream : TokenStream := TokenStream.ofList
  [⟨.identifier, ⟨0, 1⟩, ['f']⟩, ⟨.punctuator, ⟨2, 3⟩, ['(']⟩, ⟨.identifier, ⟨3, 4⟩, ['g']⟩,
    ⟨.punctuator, ⟨5, 6⟩, ['(']⟩, ⟨.literal, ⟨6, 7⟩, ['0']⟩, ⟨.punctuator, ⟨7, 8⟩, [')']⟩,
    ⟨.punctuator, ⟨8, 9⟩, [')']⟩]

/-- The source of `f (g (0))`. -/
def innerCallSource : Source :=
  ⟨"a.js", innerCallCode, innerCallTree, (Text.lines innerCallCode).toArray, innerCallStream⟩

theorem innerCallStream_liesIn : innerCallStream.LiesIn innerCallCode where
  nonempty := by decide
  ordered := by decide
  texts := by decide

theorem innerCallSource_consistent : innerCallSource.Consistent := ⟨rfl, innerCallStream_liesIn⟩

theorem ofTree?_innerCall : ofTree? "a.js" innerCallCode innerCallTree = some innerCallSource := by
  have htokens : innerCallTree.tokens? innerCallCode =
      some innerCallStream.tokens.toList := by decide
  rw [ofTree?, TokenStream.ofTree?_eq, htokens]
  rfl

theorem sites_innerCall :
    innerCallTree.sites = [⟨.call, ⟨0, 9⟩, ⟨0, 1⟩, some 2⟩, ⟨.call, ⟨3, 8⟩, ⟨3, 4⟩, some 5⟩] := by
  have hsites : innerCallTree.root.sites =
      [⟨.call, ⟨0, 9⟩, ⟨0, 1⟩, some 2⟩, ⟨.call, ⟨3, 8⟩, ⟨3, 4⟩, some 5⟩] := by decide
  rw [Tree.sites, hsites]
  exact List.mergeSort_of_pairwise (by decide)

/-- Both calls of `f (g (0))` have a space before their parenthesis. -/
theorem violationsAt_innerCall :
    innerCallSource.violationsAt .never innerCallTree.sites =
      [⟨.unexpectedSpace, .call, ⟨0, 1⟩, ⟨1, 2⟩, ⟨⟨1, 2⟩, []⟩⟩,
        ⟨.unexpectedSpace, .call, ⟨3, 4⟩, ⟨4, 5⟩, ⟨⟨4, 5⟩, []⟩⟩] := by
  have houter : Site.Violates ⟨.call, ⟨0, 9⟩, ⟨0, 1⟩, some 2⟩ innerCallStream innerCallCode .never
      ⟨.unexpectedSpace, .call, ⟨0, 1⟩, ⟨1, 2⟩, ⟨⟨1, 2⟩, []⟩⟩ :=
    ⟨2, 0, ⟨.identifier, ⟨0, 1⟩, ['f']⟩, [' '], rfl, ⟨_, rfl, rfl, rfl⟩,
      innerCallStream_liesIn.boundary_of_next (b := 0) rfl rfl rfl rfl rfl, rfl, by decide,
      List.forall_mem_singleton.2 rfl, rfl, rfl, rfl, rfl, by decide, rfl, rfl⟩
  have hinner : Site.Violates ⟨.call, ⟨3, 8⟩, ⟨3, 4⟩, some 5⟩ innerCallStream innerCallCode .never
      ⟨.unexpectedSpace, .call, ⟨3, 4⟩, ⟨4, 5⟩, ⟨⟨4, 5⟩, []⟩⟩ :=
    ⟨5, 2, ⟨.identifier, ⟨3, 4⟩, ['g']⟩, [' '], rfl, ⟨_, rfl, rfl, rfl⟩,
      innerCallStream_liesIn.boundary_of_next (b := 2) rfl rfl rfl rfl rfl, rfl, by decide,
      List.forall_mem_singleton.2 rfl, rfl, rfl, rfl, rfl, by decide, rfl, rfl⟩
  rw [← Site.violation?_eq_some_iff innerCallStream_liesIn] at houter hinner
  rw [sites_innerCall, violationsAt]
  simp only [innerCallSource, List.filterMap_cons, List.filterMap_nil, houter, hinner]

/-- No two edits collide and none is lost. Violations before the same parenthesis have the same gap
and the same edit, and of two others the gap of one stops before the gap of the other starts. A
check answers, and the patch of its edits in any order has all of them, one for every reported gap;
if no two sites have the same parenthesis, it has as many edits as there are diagnostics. -/
theorem edits_apart (h : ofTree? file code tree = some source) (horder : source.tokens.InOrder)
    (policy : Policy) :
    (∀ (site site' : Site) (v v' : Violation),
        site.check? source.tokens source.code policy = some (.ok (some v)) →
        site'.check? source.tokens source.code policy = some (.ok (some v')) →
        (site.argumentsStart = site'.argumentsStart → v.gap = v'.gap ∧ v.edit = v'.edit) ∧
          (site.argumentsStart ≠ site'.argumentsStart →
            v.gap.stop < v'.gap.start ∨ v'.gap.stop < v.gap.start)) ∧
      ∃ findings, source.check? policy = some findings ∧
        ∀ edits : List Edit, edits.Perm findings.edits →
          (∀ e, e ∈ (Patch.ofList edits).edits ↔ e ∈ findings.edits) ∧
            ((Patch.ofList edits).edits.map Edit.span).Perm findings.gaps.dedup ∧
            ((source.tree.sites.filterMap Site.argumentsStart).Nodup →
              (Patch.ofList edits).size = findings.diagnostics.length) := by
  have hsource := consistent_of_ofTree? h horder
  constructor
  · intro site site' v v' hv hv'
    rw [Site.check?_eq_violation_iff hsource.liesIn] at hv hv'
    exact ⟨hv.eq_of_argumentsStart_eq hv' horder, hv.apart_of_argumentsStart_ne hv' horder⟩
  · obtain ⟨findings, hcheck, hreports⟩ := hsource.exists_check? policy
    refine ⟨findings, hcheck, ?_⟩
    intro edits hperm
    rw [hreports.ofList_eq_patch hsource hperm]
    refine ⟨?_, hreports.perm_dedup_gaps hsource, hreports.size_patch hsource⟩
    intro e
    exact (hreports.setApart hsource).mem_ofList_iff

/-- In `f (g (0))` two gaps are reported, and the patch of the two edits has both of them, also if
they come in the other order. -/
theorem edits_apart_innerCall :
    ofTree? "a.js" innerCallCode innerCallTree = some innerCallSource ∧
      innerCallSource.tokens.InOrder ∧
      ∃ findings, innerCallSource.check? .never = some findings ∧
        findings.diagnostics.length = 2 ∧ (Patch.ofList findings.edits.reverse).size = 2 := by
  have horder : innerCallSource.tokens.InOrder := innerCallStream_liesIn.toInOrder
  obtain ⟨findings, hcheck, hpatch⟩ := (edits_apart ofTree?_innerCall horder .never).2
  obtain ⟨findings', hcheck', hreports⟩ := innerCallSource_consistent.exists_check? .never
  obtain rfl : findings = findings' := Option.some.inj (hcheck.symm.trans hcheck')
  have hlen : findings.diagnostics.length = 2 := by
    rw [← hreports.diagnostics_of.length_eq]
    exact congrArg List.length violationsAt_innerCall
  have hnodup : (innerCallSource.tree.sites.filterMap Site.argumentsStart).Nodup := by
    show (innerCallTree.sites.filterMap Site.argumentsStart).Nodup
    rw [sites_innerCall]
    decide
  obtain ⟨-, -, hsize⟩ := hpatch findings.edits.reverse (List.reverse_perm _)
  exact ⟨ofTree?_innerCall, horder, findings, hcheck, hlen, (hsize hnodup).trans hlen⟩

end Source

end ParenGap
