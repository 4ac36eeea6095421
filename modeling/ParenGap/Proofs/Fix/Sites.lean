import Mathlib.Tactic
import ParenGap.Proofs.Edit.Composition
import ParenGap.Proofs.Fix.Edits
import ParenGap.Proofs.Gap.Clean
import ParenGap.Proofs.Tree.Moved

/-!
# Sites of a respaced text

A patch that respaces the text of a tight tree leaves every site its joint, and what stands at the
joint is what the patch leaves of the text there (`jointText_moved_iff`). So the same sites are
faulty (`faulty_moved_iff`), and the same sites are clean (`clean_moved_iff`). If the patch puts in
what a policy asks for, the violations of the policy that are left are those whose edit is not made,
each where the patch moves it (`violates_moved_iff`).
-/

set_option autoImplicit false

namespace ParenGap

open Text TokenStream

/-- A violation where it stands after a patch. -/
def Violation.moved (p : Patch) (v : Violation) : Violation :=
  ⟨v.defect, v.callKind, p.movedSpan v.anchor, p.movedGap v.gap, v.edit.moved p⟩

section Edits

variable {p : Patch} {s : TokenStream} {code text : List Char} {span : Span} {site : Site}
  {policy : Policy} {v : Violation}

/-- What a patch leaves in a span is blank exactly if the text was. -/
theorem Patch.Respacing.blank_put_iff (h : p.Respacing s code)
    (htext : slice? code span.start span.stop = some text) :
    (∀ c ∈ p.put span text, isBlank c = true) ↔ ∀ c ∈ text, isBlank c = true := by
  by_cases hedit : ∃ e ∈ p.edits, e.span = span
  · obtain ⟨e, he, rfl⟩ := hedit
    rw [h.put_of_mem he]
    -- an edit replaces blank text by blank text
    obtain ⟨b, t, u, text', -, -, hspan, htext', hblank, hblank'⟩ := h.gaps e he
    rw [hspan, htext', Option.some.injEq] at htext
    rw [← htext]
    exact ⟨fun _ => hblank, fun _ => hblank'⟩
  · rw [Patch.put_of_not_mem fun e he hspan => hedit ⟨e, he, hspan⟩]

/-- The edit of a violation is in a patch that puts in what the policy asks for, if any edit of the
gap is. -/
theorem Site.Violates.edit_mem_iff (hv : site.Violates s code policy v)
    (hp : ∀ e ∈ p.edits, e.replacement = Gap.spacing policy) :
    v.edit ∈ p.edits ↔ ∃ e ∈ p.edits, e.span = v.gap := by
  rw [hv.edit_eq]
  constructor
  · intro he
    exact ⟨_, he, rfl⟩
  · rintro ⟨e, he, hspan⟩
    rw [← hspan, ← hp e he]
    exact he

end Edits

namespace Tree.Respaced

variable {tree : Tree} {s : TokenStream} {code out text text' : List Char} {p : Patch}
  {site : Site} {b : Nat} {t t' u u' : Token} {policy : Policy} {v' : Violation}

theorem stream_liesIn (h : tree.Respaced code s.tokens.toList p out) : s.LiesIn code := by
  have hs := h.liesIn
  rw [ofList_toList] at hs
  exact hs

theorem stream_respacing (h : tree.Respaced code s.tokens.toList p out) : p.Respacing s code := by
  have hp := h.respacing
  rw [ofList_toList] at hp
  exact hp

theorem moved_liesIn (h : tree.Respaced code s.tokens.toList p out) : (s.moved p).LiesIn out :=
  h.stream_respacing.liesIn_moved h.stream_liesIn h.applied

theorem stream_alike (h : tree.Respaced code s.tokens.toList p out) : s.Alike (s.moved p) :=
  h.stream_respacing.alike_moved h.stream_liesIn h.applied

theorem stream_aligned (h : tree.Respaced code s.tokens.toList p out) (hsite : site ∈ tree.sites) :
    site.Aligned (site.moved p) s (s.moved p) := by
  have ha := h.aligned_site hsite
  rw [ofList_toList] at ha
  exact ha

/-- A site has the joint that it had, or none for a fault if it had none for a fault. -/
theorem joint_moved_cases (h : tree.Respaced code s.tokens.toList p out)
    (hsite : site ∈ tree.sites) :
    (∃ fault fault', site.joint s = .error fault ∧
        (site.moved p).joint (s.moved p) = .error fault') ∨
      ∃ found, site.joint s = .ok found ∧ (site.moved p).joint (s.moved p) = .ok found :=
  (h.stream_aligned hsite).joint_cases h.stream_alike h.stream_liesIn.toInOrder
    h.moved_liesIn.toInOrder

/-- At the joint of a moved site stands what the patch leaves of the text at the joint. -/
theorem jointText_moved (h : tree.Respaced code s.tokens.toList p out) (hsite : site ∈ tree.sites)
    (hjt : site.JointText s code b t u text) :
    (site.moved p).JointText (s.moved p) out b (t.moved p) (u.moved p)
      (p.put ⟨t.span.stop, u.span.start⟩ text) := by
  obtain ⟨hj, ht, hu, htext⟩ := hjt
  have ht' : (s.moved p).get? b = some (t.moved p) := by
    rw [get?_moved, ht]
    rfl
  have hu' : (s.moved p).get? (b + 1) = some (u.moved p) := by
    rw [get?_moved, hu]
    rfl
  have hj' : (site.moved p).joint (s.moved p) = .ok (some b) :=
    (h.stream_aligned hsite).joint_eq_ok h.stream_alike h.stream_liesIn.toInOrder
      h.moved_liesIn.toInOrder hj
  refine ⟨hj', ht', hu', ?_⟩
  rw [← space?_succ code ht hu] at htext
  have hspace := h.stream_respacing.space?_moved h.stream_liesIn h.applied htext
  rw [space?_succ out ht' hu', spaceSpan_succ code ht hu] at hspace
  exact hspace

theorem jointText_moved_iff (h : tree.Respaced code s.tokens.toList p out)
    (hsite : site ∈ tree.sites) :
    (site.moved p).JointText (s.moved p) out b t' u' text' ↔
      ∃ t u text, site.JointText s code b t u text ∧ t' = t.moved p ∧ u' = u.moved p ∧
        text' = p.put ⟨t.span.stop, u.span.start⟩ text := by
  constructor
  · intro hjt'
    obtain ⟨fault, fault', -, hj'⟩ | ⟨found, hj, hj'⟩ := h.joint_moved_cases hsite
    · rw [hjt'.1] at hj'
      cases hj'
    · -- the site has the same joint, and what stands there determines the rest
      rw [hjt'.1, Except.ok.injEq] at hj'
      rw [← hj'] at hj
      obtain ⟨t, u, text, ht, hu, htext, -⟩ :=
        Site.check?_of_joint_some h.stream_liesIn hj Policy.never
      have hjt : site.JointText s code b t u text := ⟨hj, ht, hu, htext⟩
      exact ⟨t, u, text, hjt, hjt'.unique (h.jointText_moved hsite hjt)⟩
  · rintro ⟨t, u, text, hjt, rfl, rfl, rfl⟩
    exact h.jointText_moved hsite hjt

theorem blank_put_iff (h : tree.Respaced code s.tokens.toList p out)
    (hjt : site.JointText s code b t u text) :
    (∀ c ∈ p.put ⟨t.span.stop, u.span.start⟩ text, isBlank c = true) ↔
      ∀ c ∈ text, isBlank c = true :=
  h.stream_respacing.blank_put_iff hjt.2.2.2

/-- The faulty sites are the same. -/
theorem faulty_moved_iff (h : tree.Respaced code s.tokens.toList p out)
    (hsite : site ∈ tree.sites) :
    (site.moved p).Faulty (s.moved p) out ↔ site.Faulty s code := by
  have hstray : ∀ text : List Char, (∃ c ∈ text, isBlank c = false) ↔
      ¬ ∀ c ∈ text, isBlank c = true := by
    intro text
    simp
  rw [Site.faulty_iff_jointText h.stream_liesIn.toInOrder,
    Site.faulty_iff_jointText h.moved_liesIn.toInOrder]
  simp only [hstray]
  constructor
  · rintro (⟨fault', hj'⟩ | ⟨b, t', u', text', hjt', hne⟩)
    · obtain ⟨fault, -, hj, -⟩ | ⟨found, -, hj''⟩ := h.joint_moved_cases hsite
      · exact Or.inl ⟨fault, hj⟩
      · rw [hj'] at hj''
        cases hj''
    · obtain ⟨t, u, text, hjt, rfl, rfl, rfl⟩ := (h.jointText_moved_iff hsite).1 hjt'
      rw [h.blank_put_iff hjt] at hne
      exact Or.inr ⟨b, t, u, text, hjt, hne⟩
  · rintro (⟨fault, hj⟩ | ⟨b, t, u, text, hjt, hne⟩)
    · obtain ⟨-, fault', -, hj'⟩ | ⟨found, hj', -⟩ := h.joint_moved_cases hsite
      · exact Or.inl ⟨fault', hj'⟩
      · rw [hj] at hj'
        cases hj'
    · rw [← h.blank_put_iff hjt] at hne
      exact Or.inr ⟨b, _, _, _, h.jointText_moved hsite hjt, hne⟩

/-- The clean sites are the same. -/
theorem clean_moved_iff (h : tree.Respaced code s.tokens.toList p out)
    (hsite : site ∈ tree.sites) :
    (site.moved p).Clean (s.moved p) out ↔ site.Clean s code := by
  rw [Site.clean_iff_jointText h.stream_liesIn, Site.clean_iff_jointText h.moved_liesIn]
  constructor
  · rintro ⟨b, t', u', text', hjt', hblank⟩
    obtain ⟨t, u, text, hjt, rfl, rfl, rfl⟩ := (h.jointText_moved_iff hsite).1 hjt'
    exact ⟨b, t, u, text, hjt, (h.blank_put_iff hjt).1 hblank⟩
  · rintro ⟨b, t, u, text, hjt, hblank⟩
    exact ⟨b, _, _, _, h.jointText_moved hsite hjt, (h.blank_put_iff hjt).2 hblank⟩

/-- If a patch puts in what a policy asks for, a moved site violates the policy exactly if the site
did and its edit is not made. -/
theorem violates_moved_iff (h : tree.Respaced code s.tokens.toList p out)
    (hsite : site ∈ tree.sites) (hp : ∀ e ∈ p.edits, e.replacement = Gap.spacing policy) :
    (site.moved p).Violates (s.moved p) out policy v' ↔
      ∃ v, site.Violates s code policy v ∧ v.edit ∉ p.edits ∧ v' = v.moved p := by
  have hspacing : Gap.mended policy (Gap.spacing policy) = Gap.spacing policy := by
    cases policy <;> rfl
  rw [Site.violates_iff_mended h.moved_liesIn.toInOrder]
  constructor
  · rintro ⟨b, t', u', text', hjt', hblank, hne, rfl⟩
    obtain ⟨t, u, text, hjt, rfl, rfl, rfl⟩ := (h.jointText_moved_iff hsite).1 hjt'
    rw [h.blank_put_iff hjt] at hblank
    -- the gap is not edited, for it would satisfy the policy else
    have hno : ∀ e ∈ p.edits, e.span ≠ ⟨t.span.stop, u.span.start⟩ := by
      intro e he hspan
      rw [← hspan, h.stream_respacing.put_of_mem he, hp e he] at hne
      exact hne hspacing
    rw [Patch.put_of_not_mem hno] at hne
    refine ⟨site.violationAt policy t.span ⟨t.span.stop, u.span.start⟩,
      (Site.violates_iff_mended h.stream_liesIn.toInOrder).2
        ⟨b, t, u, text, hjt, hblank, hne, rfl⟩, ?_, rfl⟩
    intro he
    exact hno _ he rfl
  · rintro ⟨v, hv, hedit, rfl⟩
    rw [hv.edit_mem_iff hp] at hedit
    obtain ⟨b, t, u, text, hjt, hblank, hne, rfl⟩ :=
      (Site.violates_iff_mended h.stream_liesIn.toInOrder).1 hv
    have hno : ∀ e ∈ p.edits, e.span ≠ ⟨t.span.stop, u.span.start⟩ :=
      fun e he hspan => hedit ⟨e, he, hspan⟩
    have hjt' := h.jointText_moved hsite hjt
    rw [Patch.put_of_not_mem hno] at hjt'
    exact ⟨b, _, _, text, hjt', hblank, hne, rfl⟩

end Tree.Respaced

end ParenGap
