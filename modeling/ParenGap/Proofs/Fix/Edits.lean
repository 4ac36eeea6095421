import Mathlib.Data.List.Dedup
import Mathlib.Tactic
import ParenGap.Proofs.Edit.Respacing
import ParenGap.Proofs.Lint
import ParenGap.Text

/-!
# The edits of a check

The edits that a check proposes respace the text, and never touch its last character.
-/

set_option autoImplicit false

namespace ParenGap

/-! ## The patch of a check

The edit of a violation respaces the gap after the token that ends the callee
(`Violates.respaces`). Violations at the same token have the same edit, and violations at different
tokens have edits that lie apart, so the patch of a check keeps every edit and respaces the text
(`Reports.respacing`). Its edits are the reported gaps, each taken once (`Reports.perm_dedup_gaps`).
-/

open Text

/-- The patch that the edits of a check make. -/
def Findings.patch (f : Findings) : Patch := Patch.ofList f.edits

section Violations

variable {s : TokenStream} {code : List Char} {policy : Policy} {site site' : Site}
  {v v' : Violation}

theorem isBlank_of_mem_spacing {c : Char} (h : c ∈ Gap.spacing policy) : isBlank c = true := by
  cases policy with
  | never => cases h
  | always =>
      obtain rfl := List.mem_singleton.1 h
      decide

/-- The edit of a violation puts the policy's spacing into the gap. -/
theorem Site.Violates.edit_eq (hv : site.Violates s code policy v) :
    v.edit = ⟨v.gap, Gap.spacing policy⟩ := by
  obtain ⟨o, b, t, text, -, -, -, -, -, -, -, -, -, hspan, hpolicy⟩ := hv
  obtain ⟨defect, callKind, anchor, gap, span, replacement⟩ := v
  cases policy with
  | never =>
      obtain ⟨-, -, rfl⟩ := hpolicy
      simp only at hspan
      rw [hspan]
      rfl
  | always =>
      obtain ⟨-, -, rfl⟩ := hpolicy
      simp only at hspan
      rw [hspan]
      rfl

/-- The edit of a violation respaces the gap after the boundary of the callee. -/
theorem Site.Violates.respaces (hv : site.Violates s code policy v) :
    ∃ b, s.boundary site.callee = .ok b ∧ v.edit.Respaces s code b := by
  have hedit := hv.edit_eq
  obtain ⟨o, b, t, text, -, ⟨u, hu, -, rfl⟩, hb, ht, htext, hblank, -, -, hgap, -, -⟩ := hv
  refine ⟨b, hb, t, u, text, ht, hu, ?_, htext, hblank, ?_⟩
  · rw [hedit, hgap]
  · intro c hc
    rw [hedit] at hc
    exact isBlank_of_mem_spacing hc

/-- Under `never` only gaps that are not empty are reported. -/
theorem Site.Violates.gap_start_lt_stop (hv : site.Violates s code .never v) :
    v.gap.start < v.gap.stop := by
  obtain ⟨o, b, t, text, -, -, -, -, htext, -, -, -, hgap, -, hne, -⟩ := hv
  have hlen := add_byteLength_of_slice? htext
  have hpos : byteLength text ≠ 0 := by
    intro hzero
    exact hne (byteLength_eq_zero_iff.1 hzero)
  rw [hgap]
  show t.span.stop < o
  omega

/-- Under `always` only empty gaps are reported. -/
theorem Site.Violates.gap_start_eq_stop (hv : site.Violates s code .always v) :
    v.gap.start = v.gap.stop := by
  obtain ⟨o, b, t, text, -, -, -, -, htext, -, -, -, hgap, -, rfl, -⟩ := hv
  have hlen := add_byteLength_of_slice? htext
  rw [hgap]
  exact hlen

/-- Edits of violations are equal, or lie apart. -/
theorem Site.Violates.eq_or_apart (hv : site.Violates s code policy v)
    (hv' : site'.Violates s code policy v') (hs : s.InOrder) :
    v.edit = v'.edit ∨ v.edit.span.stop < v'.edit.span.start ∨
      v'.edit.span.stop < v.edit.span.start := by
  obtain ⟨b, -, hb⟩ := hv.respaces
  obtain ⟨b', -, hb'⟩ := hv'.respaces
  rcases Nat.lt_trichotomy b b' with hlt | rfl | hlt
  · exact Or.inr (Or.inl (hb.stop_lt_start hb' hs hlt))
  · -- the gap after a token determines the edit
    left
    obtain ⟨t, u, -, ht, hu, hspan, -⟩ := hb
    obtain ⟨t', u', -, ht', hu', hspan', -⟩ := hb'
    obtain rfl : t = t' := by simpa [ht] using ht'
    obtain rfl : u = u' := by simpa [hu] using hu'
    have hgap : v.gap = v'.gap := by
      rw [hv.edit_eq] at hspan
      rw [hv'.edit_eq] at hspan'
      exact hspan.trans hspan'.symm
    rw [hv.edit_eq, hv'.edit_eq, hgap]
  · exact Or.inr (Or.inr (hb'.stop_lt_start hb hs hlt))

end Violations

namespace Source

variable {source : Source} {policy : Policy} {sites : List Site} {findings : Findings} {e : Edit}

/-- The edits of the findings are those of the violations at the sites. -/
theorem Reports.mem_edits_iff (h : source.Reports policy sites findings)
    (hsource : source.Consistent) :
    e ∈ findings.edits ↔ ∃ site ∈ sites, ∃ v,
      site.Violates source.tokens source.code policy v ∧ v.edit = e := by
  rw [h.edits_eq, List.mem_map]
  constructor
  · rintro ⟨v, hv, rfl⟩
    obtain ⟨site, hsite, hv⟩ := hsource.mem_violationsAt_iff.1 hv
    exact ⟨site, hsite, v, hv, rfl⟩
  · rintro ⟨site, hsite, v, hv, rfl⟩
    exact ⟨v, hsource.mem_violationsAt_iff.2 ⟨site, hsite, hv⟩, rfl⟩

/-- The edits of a check put in what the policy asks for. -/
theorem Reports.replacement_eq (h : source.Reports policy sites findings)
    (hsource : source.Consistent) (he : e ∈ findings.edits) :
    e.replacement = Gap.spacing policy := by
  obtain ⟨site, -, v, hv, rfl⟩ := (h.mem_edits_iff hsource).1 he
  rw [hv.edit_eq]

theorem Reports.setApart (h : source.Reports policy sites findings) (hsource : source.Consistent) :
    Patch.SetApart findings.edits where
  start_le_stop := by
    intro e he
    obtain ⟨site, -, v, hv, rfl⟩ := (h.mem_edits_iff hsource).1 he
    obtain ⟨b, -, hb⟩ := hv.respaces
    exact hb.start_le_stop
  apart := by
    intro e he f hf
    obtain ⟨site, -, v, hv, rfl⟩ := (h.mem_edits_iff hsource).1 he
    obtain ⟨site', -, v', hv', rfl⟩ := (h.mem_edits_iff hsource).1 hf
    exact hv.eq_or_apart hv' hsource.liesIn.toInOrder

/-- The patch of a check keeps every edit. -/
theorem Reports.mem_patch_iff (h : source.Reports policy sites findings)
    (hsource : source.Consistent) :
    e ∈ findings.patch.edits ↔ ∃ site ∈ sites, ∃ v,
      site.Violates source.tokens source.code policy v ∧ v.edit = e := by
  rw [← h.mem_edits_iff hsource]
  exact (h.setApart hsource).mem_ofList_iff

/-- Some of the edits of a check make a patch that respaces the text. -/
theorem Reports.respacing_of_subset {es : List Edit} (h : source.Reports policy sites findings)
    (hsource : source.Consistent) (hsub : es ⊆ findings.edits) :
    (Patch.ofList es).Respacing source.tokens source.code where
  gaps := by
    intro e he
    obtain ⟨site, -, v, hv, rfl⟩ := (h.mem_edits_iff hsource).1 (hsub (Patch.mem_of_mem_ofList he))
    obtain ⟨b, -, hb⟩ := hv.respaces
    exact ⟨b, hb⟩
  apart := ((h.setApart hsource).subset hsub).ofList_pairwise_lt

/-- The patch of a check respaces the text. -/
theorem Reports.respacing (h : source.Reports policy sites findings)
    (hsource : source.Consistent) : findings.patch.Respacing source.tokens source.code :=
  h.respacing_of_subset hsource (List.Subset.refl _)

/-- The spans of the patch are the reported gaps, each one once. -/
theorem Reports.perm_dedup_gaps (h : source.Reports policy sites findings)
    (hsource : source.Consistent) :
    (findings.patch.edits.map Edit.span).Perm findings.gaps.dedup := by
  have hrespacing := h.respacing hsource
  have hnodup : (findings.patch.edits.map Edit.span).Nodup := by
    rw [List.nodup_iff_pairwise_ne, List.pairwise_map]
    refine hrespacing.apart.imp_of_mem fun {e f} he hf hef heq => ?_
    have hle := hrespacing.inOrder.start_le_stop e he
    rw [← heq] at hef
    omega
  apply (List.perm_ext_iff_of_nodup hnodup (List.nodup_dedup _)).2
  intro gap
  rw [List.mem_dedup, h.gaps_eq, List.mem_map, List.mem_map]
  constructor
  · rintro ⟨e, he, rfl⟩
    obtain ⟨site, hsite, v, hv, rfl⟩ := (h.mem_patch_iff hsource).1 he
    exact ⟨v, hsource.mem_violationsAt_iff.2 ⟨site, hsite, hv⟩, by rw [hv.edit_eq]⟩
  · rintro ⟨v, hv, rfl⟩
    obtain ⟨site, hsite, hv⟩ := hsource.mem_violationsAt_iff.1 hv
    exact ⟨v.edit, (h.mem_patch_iff hsource).2 ⟨site, hsite, v, hv, rfl⟩, by rw [hv.edit_eq]⟩

end Source

/-! ## How a mended text ends

Behind every violation stands an opening parenthesis (`Site.Violates.exists_paren`). So a text
without a parenthesis has no violation, and the last character of a text is never touched by a fix:
a mended text ends as the text does (`Reports.getLast?_eq`).
-/

namespace Patch

variable {code out : List Char} {m : Nat} {es : List Edit} {p : Patch}

/-- Edits that all stop before the end of a text leave its last character where it is. -/
theorem getLast?_appliedFrom? (h : appliedFrom? code m es = some out) (hm : m < byteLength code)
    (hes : ∀ e ∈ es, e.span.stop < byteLength code) : out.getLast? = code.getLast? := by
  induction es generalizing m out with
  | nil =>
      obtain ⟨⟨before, after⟩, hcut, rfl⟩ := Option.map_eq_some_iff.1 h
      obtain ⟨rfl, rfl⟩ := cut?_eq_some_append hcut
      -- what is written from the last edit on is not empty
      have hne : after ≠ [] := by
        rintro rfl
        simp at hm
      simp [List.getLast?_append, List.getLast?_eq_some_getLast hne]
  | cons e es ih =>
      obtain ⟨kept, -, h⟩ := Option.bind_eq_some_iff.1 h
      obtain ⟨rest, hrest, rfl⟩ := Option.map_eq_some_iff.1 h
      have hlast := ih hrest (hes e List.mem_cons_self)
        fun f hf => hes f (List.mem_cons_of_mem _ hf)
      have hne : code ≠ [] := by
        rintro rfl
        simp at hm
      rw [List.getLast?_append, hlast, List.getLast?_eq_some_getLast hne]
      rfl

theorem getLast?_applied? (h : p.applied? code = some out)
    (hes : ∀ e ∈ p.edits, e.span.stop < byteLength code) : out.getLast? = code.getLast? := by
  rw [applied?] at h
  by_cases hm : 0 < byteLength code
  · exact getLast?_appliedFrom? h hm hes
  · -- no edit stops before the end of the empty text
    have hnil : p.edits = [] := by
      apply List.eq_nil_iff_forall_not_mem.2
      intro e he
      have := hes e he
      omega
    rw [hnil, appliedFrom?, cut?_zero] at h
    obtain rfl : code = out := by simpa using h
    rfl

end Patch

section Parens

variable {s : TokenStream} {code out : List Char} {site : Site} {policy : Policy} {v : Violation}

/-- Behind the gap of a violation stands an opening parenthesis. -/
theorem Site.Violates.exists_paren (hv : site.Violates s code policy v) (hs : s.LiesIn code) :
    ∃ before after, code = before ++ '(' :: after ∧ byteLength before = v.edit.span.stop := by
  obtain ⟨o, b, t, text, -, ⟨u, hu, hopens, rfl⟩, -, -, -, -, -, -, hgap, hspan, -⟩ := hv
  have htext : u.text = ['('] := by
    simp only [Token.opens, Token.isPunctuator, Bool.and_eq_true, beq_iff_eq] at hopens
    exact hopens.2
  have hslice := hs.texts u (TokenStream.mem_of_get? hu)
  rw [htext] at hslice
  obtain ⟨before, after, hcode, hlen, -⟩ := slice?_eq_some_iff.1 hslice
  refine ⟨before, after, hcode, ?_⟩
  rw [hspan, hgap, hlen]

namespace Source

variable {source : Source} {sites : List Site} {findings : Findings}

/-- Something is reported only of a text with an opening parenthesis. -/
theorem Reports.paren_mem (h : source.Reports policy sites findings) (hsource : source.Consistent)
    (hne : findings.diagnostics ≠ []) : '(' ∈ source.code := by
  obtain ⟨d, hd⟩ := List.exists_mem_of_ne_nil _ hne
  obtain ⟨v, hv, -⟩ := h.exists_violation hd
  obtain ⟨site, -, hv⟩ := hsource.mem_violationsAt_iff.1 hv
  obtain ⟨before, after, hcode, -⟩ := hv.exists_paren hsource.liesIn
  rw [hcode]
  exact List.mem_append_right _ List.mem_cons_self

/-- The mended text ends as the text does. -/
theorem Reports.getLast?_eq (h : source.Reports policy sites findings)
    (hsource : source.Consistent) (hout : findings.patch.applied? source.code = some out) :
    out.getLast? = source.code.getLast? := by
  refine Patch.getLast?_applied? hout fun e he => ?_
  obtain ⟨site, -, v, hv, rfl⟩ := (h.mem_patch_iff hsource).1 he
  obtain ⟨before, after, hcode, hlen⟩ := hv.exists_paren hsource.liesIn
  have hpos : 0 < Char.utf8Size '(' := Char.utf8Size_pos '('
  rw [hcode, ← hlen, byteLength_append, byteLength_cons]
  omega

end Source

end Parens

end ParenGap
