import Mathlib.Tactic
import ParenGap.Proofs.Token.Spaces

/-!
# Patches one after another

A patch that respaces a text moves the gaps of the edits that it leaves out. Making some edits of a
patch first and the others, where they have moved, afterwards gives the same text as the patch as a
whole, with the tokens in the same places (`Respacing.eq_of_parts`). The proof looks at the text
space by space: a space is edited by one part, by the other part, or by none.
-/

set_option autoImplicit false

namespace ParenGap

open TokenStream

/-- An edit of a gap where it stands after a patch. -/
def Edit.moved (p : Patch) (e : Edit) : Edit := ⟨p.movedGap e.span, e.replacement⟩

variable {p q r : Patch} {s : TokenStream} {code between out out' : List Char} {i b : Nat}
  {e : Edit}

/-- An edit that respaces the gap after a token is made for the space before the next token. -/
theorem Edit.Respaces.span_eq (h : e.Respaces s code b) :
    e.span = s.spaceSpan code (b + 1) ∧ b + 1 < s.size := by
  obtain ⟨t, u, -, ht, hu, hspan, -⟩ := h
  exact ⟨hspan.trans (spaceSpan_succ code ht hu).symm, lt_size_of_get? hu⟩

namespace Patch.Respacing

/-- Different gaps stay different. -/
theorem span_eq_of_movedGap_eq (h : p.Respacing s code) (hs : s.LiesIn code)
    (hout : p.applied? code = some between) (he : e.Respaces s code b) (hi : i ≤ s.size)
    (hgap : p.movedGap e.span = p.movedGap (s.spaceSpan code i)) :
    e.span = s.spaceSpan code i := by
  obtain ⟨hspan, hb⟩ := he.span_eq
  have hsize := (h.alike_moved hs hout).size_eq
  obtain ⟨u, hu⟩ := exists_get?_of_lt_size (hsize ▸ hb)
  rw [hspan, ← h.spaceSpan_moved hout hb.le, ← h.spaceSpan_moved hout hi] at hgap
  -- the two spaces stop at the same token
  have hstop : (s.moved p).spaceStop between i = u.span.start :=
    (congrArg Span.stop hgap).symm.trans (spaceStop_of_get? between hu)
  have hindex := (h.liesIn_moved hs hout).eq_of_spaceStop_eq (hsize ▸ hi) hu hstop
  rw [hspan, hindex]

/-- Different edits of gaps stay different. -/
theorem moved_inj {f : Edit} {c : Nat} (h : p.Respacing s code) (hs : s.LiesIn code)
    (hout : p.applied? code = some between) (he : e.Respaces s code b) (hf : f.Respaces s code c)
    (heq : e.moved p = f.moved p) : e = f := by
  obtain ⟨hspan, hc⟩ := hf.span_eq
  rw [Edit.moved, Edit.moved, Edit.mk.injEq] at heq
  have hgap := h.span_eq_of_movedGap_eq hs hout he hc.le (hspan ▸ heq.1)
  rw [← hspan] at hgap
  obtain ⟨span, replacement⟩ := e
  obtain ⟨span', replacement'⟩ := f
  rw [Edit.mk.injEq]
  exact ⟨hgap, heq.2⟩

/-- Some edits of a patch first and the others afterwards leave in a space what the patch leaves
there. -/
theorem put_of_parts (hp : p.Respacing s code) (hr : r.Respacing s code) (hs : s.LiesIn code)
    (hbetween : p.applied? code = some between) (hq : q.Respacing (s.moved p) between)
    (hsub : p.edits ⊆ r.edits)
    (hrest : ∀ f, f ∈ q.edits ↔ ∃ e ∈ r.edits, e ∉ p.edits ∧ f = e.moved p) (hi : i ≤ s.size)
    (text : List Char) :
    q.put (p.movedGap (s.spaceSpan code i)) (p.put (s.spaceSpan code i) text) =
      r.put (s.spaceSpan code i) text := by
  -- an edit of the second part comes from an edit of the patch for the same space
  have hback : ∀ f ∈ q.edits, f.span = p.movedGap (s.spaceSpan code i) →
      ∃ e ∈ r.edits, e ∉ p.edits ∧ e.span = s.spaceSpan code i := by
    intro f hf hspan
    obtain ⟨e, he, hleft, rfl⟩ := (hrest f).1 hf
    obtain ⟨b, hb⟩ := hr.gaps e he
    exact ⟨e, he, hleft, hp.span_eq_of_movedGap_eq hs hbetween hb hi hspan⟩
  by_cases hedit : ∃ e ∈ r.edits, e.span = s.spaceSpan code i
  · obtain ⟨e, he, hspan⟩ := hedit
    rw [← hspan, hr.put_of_mem he]
    by_cases hfirst : e ∈ p.edits
    · rw [hp.put_of_mem hfirst]
      apply put_of_not_mem
      intro f hf hspan'
      rw [hspan] at hspan'
      obtain ⟨e', he', hleft, hsame⟩ := hback f hf hspan'
      obtain rfl := hr.eq_of_span_eq he he' (hspan.trans hsame.symm)
      exact hleft hfirst
    · exact hq.put_of_mem ((hrest _).2 ⟨e, he, hfirst, rfl⟩) _
  · -- neither part touches the space
    have hnone : ∀ e ∈ r.edits, e.span ≠ s.spaceSpan code i :=
      fun e he hspan => hedit ⟨e, he, hspan⟩
    rw [put_of_not_mem hnone, put_of_not_mem fun e he => hnone e (hsub he)]
    apply put_of_not_mem
    intro f hf hspan
    obtain ⟨e, he, -, hspan'⟩ := hback f hf hspan
    exact hnone e he hspan'

/-- Some edits of a patch first and the others afterwards give what the patch gives. -/
theorem eq_of_parts (hp : p.Respacing s code) (hr : r.Respacing s code) (hs : s.LiesIn code)
    (hbetween : p.applied? code = some between) (hq : q.Respacing (s.moved p) between)
    (hsub : p.edits ⊆ r.edits)
    (hrest : ∀ f, f ∈ q.edits ↔ ∃ e ∈ r.edits, e ∉ p.edits ∧ f = e.moved p)
    (hout : r.applied? code = some out) (hout' : q.applied? between = some out') :
    out = out' ∧ s.moved r = (s.moved p).moved q := by
  have hmoved := hp.liesIn_moved hs hbetween
  have halike := hr.alike_moved hs hout
  have halike' := (hp.alike_moved hs hbetween).trans (hq.alike_moved hmoved hout')
  apply (hr.liesIn_moved hs hout).eq_of_spaces (hq.liesIn_moved hmoved hout')
    (halike.symm.trans halike')
  intro i spaced hspaced
  have hi := le_size_of_space? hspaced
  rw [← halike.size_eq] at hi
  obtain ⟨text, htext⟩ := hs.exists_space? hi
  have hfirst := hp.space?_moved hs hbetween htext
  rw [hq.space?_moved hmoved hout' hfirst, hp.spaceSpan_moved hbetween hi,
    hp.put_of_parts hr hs hbetween hq hsub hrest hi text, ← hr.space?_moved hs hout htext, hspaced]

end Patch.Respacing

end ParenGap
