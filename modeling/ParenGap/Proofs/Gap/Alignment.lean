import Mathlib.Data.Option.Basic
import Mathlib.Tactic
import ParenGap.Proofs.Gap.Verdict
import ParenGap.Proofs.Token.Alignment

/-!
# Sites in texts that differ in spacing only

Two sites over alike streams are aligned if their callees and their argument lists start and stop at
aligned offsets. The look-ups, the pairing and the loop over the grouping parentheses compare
aligned offsets only, so that they come to the same token indexes at aligned sites
(`Aligned.boundary_eq_ok`, `Aligned.openParen_eq_ok`), and the sites have the same joint
(`Aligned.joint_cases`).
-/

set_option autoImplicit false

namespace ParenGap

open TokenStream

/-- The sites are of the same kind, and their callees and argument lists are at aligned offsets. -/
structure Site.Aligned (site site' : Site) (s s' : TokenStream) : Prop where
  kind_eq : site.kind = site'.kind
  start : s.AlignedStart s' site.callee.start site'.callee.start
  stop : s.AlignedStop s' site.callee.stop site'.callee.stop
  arguments : Option.Rel (s.AlignedStart s') site.argumentsStart site'.argumentsStart

variable {s s' : TokenStream} {site site' : Site} {start start' b next p o o' : Nat}
  {found : Option Nat}

section Look

/-- Over alike streams the same parenthesis groups a callee next. -/
theorem TokenStream.Alike.grouping?_eq_some (h : s.Alike s') (hs : s.InOrder) (hs' : s'.InOrder)
    (hstart : s.AlignedStart s' start start') (hb : s.grouping? start b = some next) :
    s'.grouping? start' b = some next := by
  obtain ⟨t, closer, i, opener, ht, hm, hcloser, hi, hopener, hc, hlt, hbm⟩ :=
    grouping?_eq_some_iff.1 hb
  obtain ⟨t', ht', -⟩ := h.exists_get? ht
  obtain ⟨closer', hcloser', hcc'⟩ := h.exists_get? hcloser
  obtain ⟨opener', hopener', -⟩ := h.exists_get? hopener
  rw [hs.codeAfter?_stop ht, h.codeFrom?_eq] at hm
  rw [h.partner?_eq] at hi
  rw [hcc'.closes_eq] at hc
  have hopens := (hs.alignedStart hopener hopener').lt_iff h hs hs' hstart
  refine grouping?_eq_some_iff.2
    ⟨t', closer', i, opener', ht', ?_, hcloser', hi, hopener', hc, hopens.1 hlt, hbm⟩
  rw [hs'.codeAfter?_stop ht']
  exact hm

theorem TokenStream.Alike.grouping?_eq (h : s.Alike s') (hs : s.InOrder) (hs' : s'.InOrder)
    (hstart : s.AlignedStart s' start start') (b : Nat) :
    s.grouping? start b = s'.grouping? start' b := by
  ext next
  constructor
  · exact h.grouping?_eq_some hs hs' hstart
  · exact h.symm.grouping?_eq_some hs' hs (hstart.symm h hs')

/-- Over alike streams the loop over the grouping parentheses stops at the same token. -/
theorem TokenStream.Alike.outermost_eq (h : s.Alike s') (hs : s.InOrder) (hs' : s'.InOrder)
    (hstart : s.AlignedStart s' start start') (b : Nat) :
    s.outermost start b = s'.outermost start' b := by
  fun_induction outermost s start b with
  | case1 b hnone =>
      rw [h.grouping?_eq hs hs' hstart] at hnone
      rw [outermost_eq_self hnone]
  | case2 b next hnext ih =>
      rw [h.grouping?_eq hs hs' hstart] at hnext
      rw [outermost_eq_next hnext, ih]

theorem TokenStream.Alike.opensAt (h : s.Alike s') (hs : s.InOrder) (hs' : s'.InOrder)
    (ho : s.AlignedStart s' o o') (hp : s.OpensAt o p) : s'.OpensAt o' p := by
  obtain ⟨t, ht, hopens, rfl⟩ := hp
  obtain ⟨t', ht', htt'⟩ := h.exists_get? ht
  refine ⟨t', ht', ?_, ?_⟩
  · rw [← htt'.opens_eq]
    exact hopens
  · exact ((hs.alignedStart ht ht').eq_iff h hs hs' ho).1 rfl

end Look

namespace Site.Aligned

theorem symm (ha : site.Aligned site' s s') (h : s.Alike s') (hs' : s'.InOrder) :
    site'.Aligned site s' s where
  kind_eq := ha.kind_eq.symm
  start := ha.start.symm h hs'
  stop := ha.stop.symm h hs'
  arguments := by
    have harguments := ha.arguments
    generalize site.argumentsStart = m at harguments ⊢
    generalize site'.argumentsStart = m' at harguments ⊢
    cases harguments with
    | some ho => exact .some (ho.symm h hs')
    | none => exact .none

/-- Aligned sites have the same boundary. -/
theorem boundary_eq_ok (ha : site.Aligned site' s s') (h : s.Alike s') (hs : s.InOrder)
    (hs' : s'.InOrder) (hb : s.boundary site.callee = .ok b) :
    s'.boundary site'.callee = .ok b := by
  rcases hs.boundary_spec site.callee with ⟨i, t, ht, hstop, hi⟩ | ⟨-, herr⟩
  · obtain ⟨t', ht', -⟩ := h.exists_get? ht
    have hstop' : t'.span.stop = site'.callee.stop :=
      ((h.alignedStop hs hs' ht ht').eq_iff h hs hs' ha.stop).1 hstop
    rw [hi, h.outermost_eq hs hs' ha.start] at hb
    rw [hs'.boundary_eq_ok ht' hstop']
    exact hb
  · rw [hb] at herr
    cases herr

/-- Aligned sites have the same parenthesis. -/
theorem openParen_eq_ok (ha : site.Aligned site' s s') (h : s.Alike s') (hs : s.InOrder)
    (hs' : s'.InOrder) (hp : s.openParen site = .ok found) : s'.openParen site' = .ok found := by
  have harguments := ha.arguments
  rcases hs.openParen_spec site with ⟨ho, hopen⟩ | ⟨o, ho, ⟨p, hopens, hopen⟩ | ⟨-, hopen⟩⟩
  · -- neither site has a parenthesized argument list
    rw [hopen] at hp
    rw [ho] at harguments
    rcases hs'.openParen_spec site' with ⟨-, hopen'⟩ | ⟨o', ho', -⟩
    · rw [hopen', ← hp]
    · rw [ho'] at harguments
      cases harguments
  · rw [hopen] at hp
    rw [ho] at harguments
    rcases hs'.openParen_spec site' with ⟨ho', -⟩ | ⟨o', ho', hcases⟩
    · rw [ho'] at harguments
      cases harguments
    · rw [ho'] at harguments
      cases harguments with
      | some hoo' =>
          have hopens' := h.opensAt hs hs' hoo' hopens
          rcases hcases with ⟨q, hq, hopen'⟩ | ⟨hnone, -⟩
          · rw [hopen', ← hp, hs'.opensAt_unique hq hopens']
          · exact absurd hopens' (hnone p)
  · rw [hp] at hopen
    cases hopen

theorem joint_eq_ok (ha : site.Aligned site' s s') (h : s.Alike s') (hs : s.InOrder)
    (hs' : s'.InOrder) (hj : site.joint s = .ok found) : site'.joint s' = .ok found := by
  unfold joint at hj ⊢
  cases hp : s.openParen site with
  | error fault => simp [hp] at hj
  | ok paren =>
      rw [ha.openParen_eq_ok h hs hs' hp]
      cases paren with
      | none => simpa [hp] using hj
      | some p =>
          cases hb : s.boundary site.callee with
          | error fault => simp [hp, hb] at hj
          | ok b =>
              rw [ha.boundary_eq_ok h hs hs' hb]
              simp only [hp, hb] at hj ⊢
              split at hj
              · cases hj
              · rename_i hle
                rw [if_neg hle]
                exact hj

/-- Aligned sites are both without a joint for a fault, or have the same one. -/
theorem joint_cases (ha : site.Aligned site' s s') (h : s.Alike s') (hs : s.InOrder)
    (hs' : s'.InOrder) :
    (∃ fault fault', site.joint s = .error fault ∧ site'.joint s' = .error fault') ∨
      ∃ found, site.joint s = .ok found ∧ site'.joint s' = .ok found := by
  cases hj : site.joint s with
  | ok found => exact Or.inr ⟨found, rfl, ha.joint_eq_ok h hs hs' hj⟩
  | error fault =>
      cases hj' : site'.joint s' with
      | error fault' => exact Or.inl ⟨fault, fault', rfl, rfl⟩
      | ok found =>
          have hback := (ha.symm h hs').joint_eq_ok h.symm hs' hs hj'
          rw [hj] at hback
          cases hback

end Site.Aligned

end ParenGap
