import Mathlib.Data.List.Dedup
import Mathlib.Tactic
import ParenGap.Proofs.Fix.Runs
import ParenGap.Proofs.Fix.Separation

/-!
# Mending one diagnostic at a time

A text can be mended step by step: it is checked, one diagnostic is picked, its edit alone is made,
and the result is checked again (`MendsIn`). What carries the induction is that the text after some
steps is the first text with some of the reported edits made, each one once (`Partway`). The
violations of that text are those whose edit is still to be made, where they have moved
(`Partway.mem_violationsAt_iff`), so that each step makes one more edit (`Partway.next`).

The order in which the diagnostics are picked does not matter (`fixCode_stepwise`): there are as
many steps as reported gaps, and the last text is the one that the fix gives in one go.
-/

set_option autoImplicit false

namespace ParenGap

open TokenStream

section Moved

variable {p q r : Patch} {s : TokenStream} {code : List Char} {policy : Policy} {site : Site}
  {v : Violation}

/-- Two patches after each other move a violation to where one patch moves it, if they do so with
the tokens. -/
theorem Site.Violates.moved_moved (hv : site.Violates s code policy v) (hs : s.InOrder)
    (hstream : s.moved r = (s.moved p).moved q) : v.moved r = (v.moved p).moved q := by
  obtain ⟨b, t, u, text, ⟨-, ht, hu, -⟩, -, -, rfl⟩ := (violates_iff_mended hs).1 hv
  have htoken : ∀ {i : Nat} {t : Token}, s.get? i = some t →
      r.movedSpan t.span = q.movedSpan (p.movedSpan t.span) := by
    intro i t hi
    have hget := congrArg (fun stream => (stream.get? i).map Token.span) hstream
    simp only [get?_moved, hi, Option.map_some] at hget
    exact Option.some.inj hget
  have hstop : r.movedStop t.span.stop = q.movedStop (p.movedStop t.span.stop) :=
    congrArg Span.stop (htoken ht)
  have hstart : r.movedStart u.span.start = q.movedStart (p.movedStart u.span.start) :=
    congrArg Span.start (htoken hu)
  simp only [violationAt, Violation.moved, Edit.moved, Patch.movedGap, htoken ht, hstop, hstart]

end Moved

namespace Source

variable {source source' : Source} {policy : Policy} {findings : Findings} {es : List Edit}
  {code'' : List Char} {v : Violation} {e : Edit}

theorem Reports.mem_ofList_iff (h : source.Reports policy source.tree.sites findings)
    (hsource : source.Consistent) (hsub : es ⊆ findings.edits) :
    e ∈ (Patch.ofList es).edits ↔ e ∈ es :=
  ((h.setApart hsource).subset hsub).mem_ofList_iff

theorem Reports.edit_mem (h : source.Reports policy source.tree.sites findings)
    (hv : v ∈ source.violationsAt policy source.tree.sites) : v.edit ∈ findings.edits := by
  rw [h.edits_eq]
  exact List.mem_map_of_mem hv

/-- After some of the edits the violations that are left are those whose edit is not made. -/
theorem Moves.perm_violationsAt_of_subset (h : source.Moves (Patch.ofList es) source')
    (hreports : source.Reports policy source.tree.sites findings) (hsource : source.Consistent)
    (hsub : es ⊆ findings.edits) :
    (source'.violationsAt policy source'.tree.sites).Perm
      (((source.violationsAt policy source.tree.sites).filter fun v => v.edit ∉ es).map
        (Violation.moved (Patch.ofList es))) := by
  have hperm := h.perm_violationsAt fun e he =>
    hreports.replacement_eq hsource (hsub (Patch.mem_of_mem_ofList he))
  simp only [hreports.mem_ofList_iff hsource hsub] at hperm
  exact hperm

/-- Making the edit of one more violation, where it has moved, comes to making it with the
others. -/
theorem Moves.exists_applied?_next {findings' : Findings}
    (h : source.Moves (Patch.ofList es) source')
    (hreports : source.Reports policy source.tree.sites findings) (hsource : source.Consistent)
    (hreports' : source'.Reports policy source'.tree.sites findings')
    (hsource' : source'.Consistent) (hsub : es ⊆ findings.edits)
    (hv : v ∈ source.violationsAt policy source.tree.sites) (hnew : v.edit ∉ es) :
    ∃ out, (Patch.ofList [v.edit.moved (Patch.ofList es)]).applied? source'.code = some out ∧
      (Patch.ofList (v.edit :: es)).applied? source.code = some out ∧
      source.tokens.moved (Patch.ofList (v.edit :: es)) =
        source'.tokens.moved (Patch.ofList [v.edit.moved (Patch.ofList es)]) := by
  have hsub' : v.edit :: es ⊆ findings.edits :=
    List.cons_subset.2 ⟨hreports.edit_mem hv, hsub⟩
  -- the violation is still there, so that its moved edit is among those of the second check
  have hleft : v.moved (Patch.ofList es) ∈ source'.violationsAt policy source'.tree.sites := by
    apply (h.perm_violationsAt_of_subset hreports hsource hsub).mem_iff.2
    exact List.mem_map_of_mem (List.mem_filter.2 ⟨hv, decide_eq_true hnew⟩)
  have hone : [v.edit.moved (Patch.ofList es)] ⊆ findings'.edits :=
    List.cons_subset.2 ⟨hreports'.edit_mem hleft, List.nil_subset _⟩
  have hp := hreports.respacing_of_subset hsource hsub
  have hr := hreports.respacing_of_subset hsource hsub'
  have hq := hreports'.respacing_of_subset hsource' hone
  obtain ⟨out, hout⟩ := Patch.exists_applied? hr.inOrder
  obtain ⟨out', hout'⟩ := Patch.exists_applied? hq.inOrder
  rw [h.tokens_eq] at hq ⊢
  obtain ⟨rfl, hstream⟩ := hp.eq_of_parts hr hsource.liesIn h.respaced.applied hq
    (fun e he => (hreports.mem_ofList_iff hsource hsub').2
      (List.mem_cons_of_mem _ ((hreports.mem_ofList_iff hsource hsub).1 he)))
    (fun f => by
      simp only [hreports.mem_ofList_iff hsource hsub', hreports.mem_ofList_iff hsource hsub,
        hreports'.mem_ofList_iff hsource' hone, List.mem_cons, List.not_mem_nil, or_false]
      constructor
      · rintro rfl
        exact ⟨v.edit, Or.inl rfl, hnew, rfl⟩
      · rintro ⟨e, rfl | he, hleft, rfl⟩
        · rfl
        · exact absurd he hleft) hout hout'
  exact ⟨out, hout', hout, hstream⟩

/-- One more edit takes the violations away that it was reported for, and moves the others. -/
theorem Moves.perm_violationsAt_next {source'' : Source}
    (h : source.Moves (Patch.ofList es) source')
    (h' : source.Moves (Patch.ofList (v.edit :: es)) source'')
    (hreports : source.Reports policy source.tree.sites findings) (hsource : source.Consistent)
    (hsub : es ⊆ findings.edits) (hv : v ∈ source.violationsAt policy source.tree.sites)
    (hstream : source.tokens.moved (Patch.ofList (v.edit :: es)) =
      source'.tokens.moved (Patch.ofList [v.edit.moved (Patch.ofList es)])) :
    (source''.violationsAt policy source''.tree.sites).Perm
      (((source'.violationsAt policy source'.tree.sites).filter
        fun w => w.edit ≠ v.edit.moved (Patch.ofList es)).map
          (Violation.moved (Patch.ofList [v.edit.moved (Patch.ofList es)]))) := by
  have hsub' : v.edit :: es ⊆ findings.edits :=
    List.cons_subset.2 ⟨hreports.edit_mem hv, hsub⟩
  have hbefore := h.perm_violationsAt_of_subset hreports hsource hsub
  have hafter := h'.perm_violationsAt_of_subset hreports hsource hsub'
  rw [h.tokens_eq] at hstream
  refine hafter.trans (List.Perm.trans (List.Perm.of_eq ?_) ((hbefore.filter _).map _).symm)
  rw [List.filter_map, List.filter_filter, List.map_map]
  have hviolates : ∀ w ∈ source.violationsAt policy source.tree.sites,
      ∃ site ∈ source.tree.sites, site.Violates source.tokens source.code policy w :=
    fun w hw => hsource.mem_violationsAt_iff.1 hw
  obtain ⟨site, -, hviolates_v⟩ := hviolates v hv
  obtain ⟨b, -, hb⟩ := hviolates_v.respaces
  -- an edit is still to be made exactly if it was, and it is not the one that is made now
  have hfilter : ((source.violationsAt policy source.tree.sites).filter
      fun w => decide (w.edit ∉ v.edit :: es)) =
      (source.violationsAt policy source.tree.sites).filter fun w =>
        decide ((w.moved (Patch.ofList es)).edit ≠ v.edit.moved (Patch.ofList es)) &&
          decide (w.edit ∉ es) := by
    apply List.filter_congr
    intro w hw
    obtain ⟨other, -, hviolates_w⟩ := hviolates w hw
    obtain ⟨c, -, hc⟩ := hviolates_w.respaces
    have hinj : (w.moved (Patch.ofList es)).edit = v.edit.moved (Patch.ofList es) ↔
        w.edit = v.edit := by
      constructor
      · exact (hreports.respacing_of_subset hsource hsub).moved_inj hsource.liesIn
          h.respaced.applied hc hb
      · intro heq
        rw [← heq]
        rfl
    rw [← Bool.decide_and, decide_eq_decide, Ne, hinj, List.mem_cons, not_or]
  rw [hfilter]
  apply List.map_congr_left
  intro w hw
  obtain ⟨other, -, hviolates_w⟩ := hviolates w (List.mem_of_mem_filter hw)
  exact hviolates_w.moved_moved hsource.liesIn.toInOrder hstream

end Source

namespace Command

/-- One step of mending: the text is checked, and the edit of one diagnostic is made alone. -/
def Mends (parser : Parser) (file : String) (policy : Policy) (e : Edit)
    (code code' : List Char) : Prop :=
  ∃ source findings, parseChecked parser file code = .ok source ∧
    source.check? policy = some findings ∧ (∃ d ∈ findings.diagnostics, d.edit = some e) ∧
    (Patch.ofList [e]).applied? code = some code'

/-- Some steps of mending, counted. -/
inductive MendsIn (parser : Parser) (file : String) (policy : Policy) (code : List Char) :
    Nat → List Char → Prop
  | refl : MendsIn parser file policy code 0 code
  | step {n : Nat} {e : Edit} {code' code'' : List Char} :
      MendsIn parser file policy code n code' → Mends parser file policy e code' code'' →
        MendsIn parser file policy code (n + 1) code''

/-- The parser gives the moved tree for the text with any of the edits made. -/
def FollowsEdits (parser : Parser) (code : List Char) (tree : Tree) (edits : List Edit) : Prop :=
  ∀ es : List Edit, es.Sublist edits → ∀ code', (Patch.ofList es).applied? code = some code' →
    parser code' = some (tree.moved (Patch.ofList es))

/-- Some of the reported edits have been made, each one once, and a run sees the text as the source
moved by them. -/
structure Partway (parser : Parser) (file : String) (source : Source) (findings : Findings)
    (es : List Edit) (code' : List Char) (source' : Source) : Prop where
  nodup : es.Nodup
  subset : es ⊆ findings.edits
  sees : Sees parser file code' source'
  moves : source.Moves (Patch.ofList es) source'

variable {parser : Parser} {file : String} {policy : Policy} {code code' out : List Char}
  {tree : Tree} {source source' : Source} {findings findings' : Findings} {es : List Edit}
  {v : Violation} {d : Diagnostic} {n : Nat}

/-- A run sees the text with any of the reported edits made. -/
theorem Sees.exists_partway (h : Sees parser file code source)
    (hreports : source.Reports policy source.tree.sites findings)
    (hfollows : FollowsEdits parser source.code source.tree findings.edits) (hnodup : es.Nodup)
    (hsub : es ⊆ findings.edits) :
    ∃ code' source', (Patch.ofList es).applied? source.code = some code' ∧
      Partway parser file source findings es code' source' := by
  have hsource := h.regular.consistent
  have hrespacing := hreports.respacing_of_subset hsource hsub
  obtain ⟨code', hout⟩ := Patch.exists_applied? hrespacing.inOrder
  -- the edits make the same patch in the order in which they are reported
  have hsame : Patch.ofList (findings.edits.filter fun e => e ∈ es) = Patch.ofList es := by
    apply ((hreports.setApart hsource).subset hsub).ofList_eq_of_mem_iff
    intro e
    rw [List.mem_filter, decide_eq_true_eq]
    exact ⟨And.right, fun he => ⟨hsub he, he⟩⟩
  have hparse := hfollows _ List.filter_sublist code' (hsame ▸ hout)
  rw [hsame] at hparse
  obtain ⟨source', hsees', hmoves⟩ := h.next hrespacing hout hparse
  exact ⟨code', source', hout, hnodup, hsub, hsees', hmoves⟩

/-- A diagnostic on the way is about a violation whose edit is still to be made. -/
theorem Partway.exists_violation (h : Partway parser file source findings es code' source')
    (hreports : source.Reports policy source.tree.sites findings) (hsource : source.Consistent)
    (hreports' : source'.Reports policy source'.tree.sites findings')
    (hd : d ∈ findings'.diagnostics) :
    ∃ v ∈ source.violationsAt policy source.tree.sites, v.edit ∉ es ∧
      d.edit = some (v.edit.moved (Patch.ofList es)) := by
  obtain ⟨v', hv', hvd⟩ := hreports'.exists_violation hd
  have hperm := h.moves.perm_violationsAt_of_subset hreports hsource h.subset
  obtain ⟨v, hv, rfl⟩ := List.mem_map.1 (hperm.mem_iff.1 hv')
  obtain ⟨hv, hnew⟩ := List.mem_filter.1 hv
  exact ⟨v, hv, of_decide_eq_true hnew, (Violation.diagnostic?_spec hvd).1⟩

/-- One more edit can be made, and it takes away the violations that it is the edit of. -/
theorem Partway.next (h : Partway parser file source findings es code' source')
    (hsees : Sees parser file code source)
    (hreports : source.Reports policy source.tree.sites findings)
    (hfollows : FollowsEdits parser source.code source.tree findings.edits)
    (hv : v ∈ source.violationsAt policy source.tree.sites) (hnew : v.edit ∉ es) :
    ∃ code'' source'', (Patch.ofList [v.edit.moved (Patch.ofList es)]).applied? code' =
        some code'' ∧
      Partway parser file source findings (v.edit :: es) code'' source'' ∧
      (source''.violationsAt policy source''.tree.sites).Perm
        (((source'.violationsAt policy source'.tree.sites).filter
          fun w => w.edit ≠ v.edit.moved (Patch.ofList es)).map
            (Violation.moved (Patch.ofList [v.edit.moved (Patch.ofList es)]))) := by
  have hsource := hsees.regular.consistent
  have hsource' := h.sees.regular.consistent
  obtain ⟨findings', -, hreports'⟩ := hsource'.exists_check? policy
  obtain ⟨code'', hout', hout, hstream⟩ := h.moves.exists_applied?_next hreports hsource hreports'
    hsource' h.subset hv hnew
  obtain ⟨after, source'', hafter, hpartway⟩ := hsees.exists_partway hreports hfollows
    (List.nodup_cons.2 ⟨hnew, h.nodup⟩) (List.cons_subset.2 ⟨hreports.edit_mem hv, h.subset⟩)
  obtain rfl : after = code'' := Option.some.inj (hafter.symm.trans hout)
  rw [h.sees.code_eq] at hout'
  exact ⟨after, source'', hout', hpartway,
    h.moves.perm_violationsAt_next hpartway.moves hreports hsource h.subset hv hstream⟩

/-- After some steps as many of the reported edits have been made. -/
theorem MendsIn.exists_partway (h : MendsIn parser file policy code n code')
    (hsees : Sees parser file code source)
    (hreports : source.Reports policy source.tree.sites findings)
    (hfollows : FollowsEdits parser source.code source.tree findings.edits) :
    ∃ es source', es.length = n ∧ Partway parser file source findings es code' source' := by
  induction h with
  | refl =>
      obtain ⟨code', source', hout, hpartway⟩ := hsees.exists_partway hreports hfollows
        List.nodup_nil (List.nil_subset _)
      have hnone : (Patch.ofList []).applied? source.code = some source.code := by
        simp [Patch.ofList, Patch.keepFrom, Patch.applied?, Patch.appliedFrom?]
      obtain rfl : code' = source.code := Option.some.inj (hout.symm.trans hnone)
      obtain rfl := hsees.code_eq
      exact ⟨[], source', rfl, hpartway⟩
  | step _ hmends ih =>
      obtain ⟨es, source', rfl, hpartway⟩ := ih
      obtain ⟨seen, findings', hparsed, hcheck, ⟨d, hd, hedit⟩, happlied⟩ := hmends
      obtain rfl := hpartway.sees.eq_of_parsed hparsed
      obtain ⟨found, hcheck', hreports'⟩ :=
        hpartway.sees.regular.consistent.exists_check? policy
      obtain rfl : findings' = found := Option.some.inj (hcheck.symm.trans hcheck')
      -- the picked edit belongs to a violation of the first text
      obtain ⟨v, hv, hnew, hedit'⟩ :=
        hpartway.exists_violation hreports hsees.regular.consistent hreports' hd
      obtain rfl := Option.some.inj (hedit.symm.trans hedit')
      obtain ⟨code'', source'', happlied', hnext, -⟩ :=
        hpartway.next hsees hreports hfollows hv hnew
      obtain rfl := Option.some.inj (happlied.symm.trans happlied')
      exact ⟨v.edit :: es, source'', rfl, hnext⟩

/-- The reported gaps are counted by the edits of the patch. -/
theorem Partway.length_le (h : Partway parser file source findings es code' source')
    (hreports : source.Reports policy source.tree.sites findings) (hsource : source.Consistent) :
    es.length ≤ findings.gaps.dedup.length ∧
      (es.length = findings.gaps.dedup.length ↔ findings.edits ⊆ es) := by
  have hcount := (hreports.perm_dedup_gaps hsource).length_eq
  rw [List.length_map] at hcount
  rw [← hcount]
  have hmem : ∀ e, e ∈ findings.patch.edits ↔ e ∈ findings.edits :=
    fun e => hreports.mem_ofList_iff hsource (List.Subset.refl _)
  have hsubperm : es.Subperm findings.patch.edits :=
    h.nodup.subperm fun e he => (hmem e).2 (h.subset he)
  refine ⟨hsubperm.length_le, ?_⟩
  constructor
  · intro hlen e he
    exact (hsubperm.perm_of_length_le hlen.ge).mem_iff.2 ((hmem e).2 he)
  · intro hall
    have hnodup : findings.patch.edits.Nodup :=
      ((hreports.perm_dedup_gaps hsource).nodup_iff.2 (List.nodup_dedup _)).of_map _
    have hback : findings.patch.edits.Subperm es :=
      hnodup.subperm fun e he => hall ((hmem e).1 he)
    exact le_antisymm hsubperm.length_le hback.length_le

/-- Nothing is reported any longer exactly if all reported edits are made. -/
theorem Partway.diagnostics_eq_nil_iff (h : Partway parser file source findings es code' source')
    (hreports : source.Reports policy source.tree.sites findings) (hsource : source.Consistent)
    (hreports' : source'.Reports policy source'.tree.sites findings') :
    findings'.diagnostics = [] ↔ findings.edits ⊆ es := by
  constructor
  · intro hnil e he
    rw [hreports'.diagnostics_eq_nil_iff] at hnil
    obtain ⟨v, hv, rfl⟩ := List.mem_map.1 (hreports.edits_eq ▸ he)
    -- a violation whose edit is not made is still there
    by_contra hnew
    have hleft := (h.moves.perm_violationsAt_of_subset hreports hsource h.subset).mem_iff.2
      (List.mem_map_of_mem (List.mem_filter.2 ⟨hv, decide_eq_true hnew⟩))
    rw [hnil] at hleft
    cases hleft
  · intro hall
    apply List.eq_nil_iff_forall_not_mem.2
    intro d hd
    obtain ⟨v, hv, hnew, -⟩ := h.exists_violation hreports hsource hreports' hd
    exact hnew (hall (hreports.edit_mem hv))

/-! ## A call in the arguments of a call -/

/-- A parser that knows `f (g (0))` with any of its two gaps closed. -/
def innerCallParser : Parser := fun code =>
  if code = Source.innerCallCode then
    some (Source.innerCallTree.moved ⟨[]⟩)
  else if code = ['f', '(', 'g', ' ', '(', '0', ')', ')'] then
    some (Source.innerCallTree.moved ⟨[⟨⟨1, 2⟩, []⟩]⟩)
  else if code = ['f', ' ', '(', 'g', '(', '0', ')', ')'] then
    some (Source.innerCallTree.moved ⟨[⟨⟨4, 5⟩, []⟩]⟩)
  else if code = ['f', '(', 'g', '(', '0', ')', ')'] then
    some (Source.innerCallTree.moved ⟨[⟨⟨1, 2⟩, []⟩, ⟨⟨4, 5⟩, []⟩]⟩)
  else none

theorem innerCallParser_innerCallCode :
    innerCallParser Source.innerCallCode = some Source.innerCallTree := rfl

theorem followsEdits_innerCall : FollowsEdits innerCallParser Source.innerCallCode
    Source.innerCallTree [⟨⟨1, 2⟩, []⟩, ⟨⟨4, 5⟩, []⟩] := by
  intro es hsub code' hout
  have hpairwise : ([⟨⟨1, 2⟩, []⟩, ⟨⟨4, 5⟩, []⟩] : List Edit).Pairwise fun a b =>
      a.span.start < b.span.start ∧ a.span.stop ≤ b.span.start := by decide
  rw [Patch.ofList_eq_mk (hpairwise.sublist hsub)] at hout ⊢
  have hmem := List.mem_sublists.2 hsub
  have hall : ([⟨⟨1, 2⟩, []⟩, ⟨⟨4, 5⟩, []⟩] : List Edit).sublists =
      [[], [⟨⟨1, 2⟩, []⟩], [⟨⟨4, 5⟩, []⟩], [⟨⟨1, 2⟩, []⟩, ⟨⟨4, 5⟩, []⟩]] := by decide
  rw [hall] at hmem
  simp only [List.mem_cons, List.not_mem_nil, or_false] at hmem
  rcases hmem with rfl | rfl | rfl | rfl
  all_goals
    obtain rfl := Option.some.inj hout
    rfl

/-- The check of `f (g (0))` under `never` reports two gaps. -/
theorem exists_check?_innerCall : ∃ findings,
    Source.innerCallSource.check? .never = some findings ∧
      findings.edits = [⟨⟨1, 2⟩, []⟩, ⟨⟨4, 5⟩, []⟩] ∧ findings.gaps.dedup.length = 2 := by
  obtain ⟨findings, hcheck, hreports⟩ := Source.innerCallSource_consistent.exists_check? .never
  have hviolations := Source.violationsAt_innerCall
  refine ⟨findings, hcheck, ?_, ?_⟩
  · rw [hreports.edits_eq]
    exact congrArg (List.map Violation.edit) hviolations
  · rw [hreports.gaps_eq]
    exact congrArg (fun vs => (vs.map Violation.gap).dedup.length) hviolations

theorem parseChecked_innerCall :
    parseChecked innerCallParser "a.js" Source.innerCallCode = .ok Source.innerCallSource := by
  simp only [parseChecked, innerCallParser_innerCallCode, Source.ofTree?_innerCall, orOutside,
    Except.bind]
  rfl

/-! ## Any order -/

/-- The fixes of a check compose in any order. If the parser gives the moved tree for the text with
any of the reported edits made, then in every process that picks one diagnostic after the other and
makes its edit alone, there are at most as many steps as reported gaps. Something is left to pick
exactly if there have been fewer steps; if nothing is left, the text is that of the fix. Every
diagnostic that is left can be picked, and the step takes away the violations that have its edit and
leaves all others, where they have moved. -/
theorem fixCode_stepwise (file : String) (policy : Policy) (hparse : parser code = some tree)
    (hwf : tree.WellFormed code) (htight : tree.Tight) (herr : tree.hasError = false) :
    ∃ source findings out, Fixes parser file policy code source findings out ∧
      (FollowsEdits parser code tree findings.edits →
        ∀ n code', MendsIn parser file policy code n code' →
          ∃ source' findings', parseChecked parser file code' = .ok source' ∧
            source'.check? policy = some findings' ∧
            source'.Reports policy source'.tree.sites findings' ∧
            n ≤ findings.gaps.dedup.length ∧
            (findings'.diagnostics = [] ↔ n = findings.gaps.dedup.length) ∧
            (findings'.diagnostics = [] → code' = out) ∧
            ∀ d ∈ findings'.diagnostics, ∃ e code'' source'', d.edit = some e ∧
              Mends parser file policy e code' code'' ∧
              parseChecked parser file code'' = .ok source'' ∧
              (source''.violationsAt policy source''.tree.sites).Perm
                (((source'.violationsAt policy source'.tree.sites).filter
                  fun v => v.edit ≠ e).map (Violation.moved (Patch.ofList [e])))) := by
  obtain ⟨source, hsees, rfl⟩ := exists_sees file hparse hwf htight herr
  obtain ⟨findings, out, hfixes, hreports, hout⟩ := hsees.exists_fixes policy
  obtain rfl := hsees.code_eq
  refine ⟨source, findings, out, hfixes, ?_⟩
  intro hfollows n code' hrun
  have hsource := hsees.regular.consistent
  obtain ⟨es, source', rfl, hpartway⟩ := hrun.exists_partway hsees hreports hfollows
  obtain ⟨findings', hcheck', hreports'⟩ := hpartway.sees.regular.consistent.exists_check? policy
  have hnil := hpartway.diagnostics_eq_nil_iff hreports hsource hreports'
  obtain ⟨hle, hlen⟩ := hpartway.length_le hreports hsource
  refine ⟨source', findings', hpartway.sees.parsed, hcheck', hreports', hle,
    hnil.trans hlen.symm, ?_, ?_⟩
  · -- all reported edits are made, so that their patch is that of the check
    intro hnone
    have hall := hnil.1 hnone
    have hpatch : Patch.ofList es = findings.patch :=
      (hreports.setApart hsource).ofList_eq_of_mem_iff
        fun e => ⟨fun he => hpartway.subset he, fun he => hall he⟩
    have happlied := hpartway.moves.respaced.applied
    rw [hpatch, hout, Option.some.injEq] at happlied
    rw [happlied, hpartway.sees.code_eq]
  · intro d hd
    obtain ⟨v, hv, hnew, hedit⟩ := hpartway.exists_violation hreports hsource hreports' hd
    obtain ⟨code'', source'', happlied, hnext, hperm⟩ :=
      hpartway.next hsees hreports hfollows hv hnew
    exact ⟨_, code'', source'', hedit,
      ⟨source', findings', hpartway.sees.parsed, hcheck', ⟨d, hd, hedit⟩, happlied⟩,
      hnext.sees.parsed, hperm⟩

/-- The two gaps of `f (g (0))` can be closed one after the other in any order: two steps are
possible, and any two steps give what the fix gives. -/
theorem fixCode_stepwise_innerCall :
    Source.innerCallTree.WellFormed Source.innerCallCode ∧ Source.innerCallTree.Tight ∧
      FollowsEdits innerCallParser Source.innerCallCode Source.innerCallTree
        [⟨⟨1, 2⟩, []⟩, ⟨⟨4, 5⟩, []⟩] ∧
      (∃ code', MendsIn innerCallParser "a.js" .never Source.innerCallCode 2 code') ∧
      ∀ code', MendsIn innerCallParser "a.js" .never Source.innerCallCode 2 code' →
        fixCode innerCallParser "a.js" .never Source.innerCallCode = .ok code' := by
  have hwf : Source.innerCallTree.WellFormed Source.innerCallCode := by decide
  have htight : Source.innerCallTree.Tight := by decide
  obtain ⟨source, findings, out, hfixes, hsteps⟩ :=
    fixCode_stepwise "a.js" .never innerCallParser_innerCallCode hwf htight rfl
  obtain ⟨found, hcheck, hedits, hcount⟩ := exists_check?_innerCall
  obtain rfl : Source.innerCallSource = source :=
    Except.ok.inj (parseChecked_innerCall.symm.trans hfixes.parsed)
  obtain rfl : findings = found := Option.some.inj (hfixes.checked.symm.trans hcheck)
  have hall := hsteps (hedits ▸ followsEdits_innerCall)
  rw [hcount] at hall
  -- as long as there have been fewer than two steps there is a diagnostic to pick
  have hnext : ∀ n code', n ≠ 2 →
      MendsIn innerCallParser "a.js" .never Source.innerCallCode n code' →
        ∃ code'', MendsIn innerCallParser "a.js" .never Source.innerCallCode (n + 1) code'' := by
    intro n code' hn hrun
    obtain ⟨source', findings', -, -, -, -, hleft, -, hmends⟩ := hall n code' hrun
    obtain ⟨d, hd⟩ := List.exists_mem_of_ne_nil _ fun hnil => hn (hleft.1 hnil)
    obtain ⟨e, code'', -, -, hstep, -⟩ := hmends d hd
    exact ⟨code'', hrun.step hstep⟩
  refine ⟨hwf, htight, followsEdits_innerCall, ?_, ?_⟩
  · obtain ⟨code', hrun⟩ := hnext 0 _ (by decide) .refl
    exact hnext 1 code' (by decide) hrun
  · intro code' hrun
    obtain ⟨source', findings', -, -, -, -, hleft, hlast, -⟩ := hall 2 code' hrun
    rw [hlast (hleft.2 rfl)]
    exact hfixes.fixed

end Command

end ParenGap
