import Mathlib.Tactic
import ParenGap.Proofs.Lint

/-!
# Clean sites

A site is clean if it has an argument list, no check of it gives a fault, and no token lies in its
gap. These are the sites whose boundary and parenthesis are neighbours with white space only in
between (`clean_iff_jointText`). A policy judges a clean site by what it would leave in the gap
(`judge_of_blank`): `never` leaves nothing, and `always` leaves what is there, or a space if nothing
is. What one policy leaves in a gap is against the other policy, whatever was in the gap
(`mended_other_ne`).
-/

set_option autoImplicit false

namespace ParenGap

open TokenStream

/-! ## What a policy leaves in a gap -/

namespace Policy

/-- The policy that is not the given one. -/
def other : Policy → Policy
  | .never => .always
  | .always => .never

/-- What is wrong with white space that is against a policy. -/
def defect : Policy → Defect
  | .never => .unexpectedSpace
  | .always => .missingSpace

end Policy

namespace Gap

variable {policy : Policy} {text : List Char}

/-- What a policy leaves of the white space in a gap. -/
def mended : Policy → List Char → List Char
  | .never, _ => []
  | .always, [] => [' ']
  | .always, c :: cs => c :: cs

theorem mended_eq_spacing (h : mended policy text ≠ text) :
    mended policy text = spacing policy := by
  cases policy with
  | never => rfl
  | always =>
      cases text with
      | nil => rfl
      | cons c cs => exact absurd rfl h

/-- What a policy leaves is not against it. -/
theorem mended_mended (policy : Policy) (text : List Char) :
    mended policy (mended policy text) = mended policy text := by
  cases policy with
  | never => rfl
  | always => cases text <;> rfl

/-- What a policy leaves is against the other policy. -/
theorem mended_other_ne (policy : Policy) (text : List Char) :
    mended policy.other (mended policy text) ≠ mended policy text := by
  cases policy with
  | never => exact List.cons_ne_nil _ _
  | always =>
      cases text with
      | nil => exact (List.cons_ne_nil _ _).symm
      | cons c cs => exact (List.cons_ne_nil _ _).symm

end Gap

namespace Site

variable {site : Site} {s : TokenStream} {code : List Char} {policy : Policy} {anchor gap : Span}
  {text : List Char}

/-- What is reported of a gap that is against a policy. -/
def violationAt (site : Site) (policy : Policy) (anchor gap : Span) : Violation :=
  ⟨policy.defect, site.kind, anchor, gap, ⟨gap, Gap.spacing policy⟩⟩

/-- A blank gap is reported if the policy would leave something else in it. -/
theorem judge_of_blank (h : ∀ c ∈ text, Text.isBlank c = true) :
    site.judge policy anchor gap text =
      if Gap.mended policy text = text then .ok none
      else .ok (some (site.violationAt policy anchor gap)) := by
  have hall : text.all Text.isBlank = true := List.all_eq_true.2 h
  unfold judge
  rw [if_pos hall]
  cases policy with
  | never => cases text <;> rfl
  | always =>
      cases text with
      | nil => rfl
      | cons c cs =>
          rw [Gap.mended, if_pos rfl]
          rfl

theorem judge_eq_some_iff_mended {v : Violation} :
    site.judge policy anchor gap text = .ok (some v) ↔
      (∀ c ∈ text, Text.isBlank c = true) ∧ Gap.mended policy text ≠ text ∧
        v = site.violationAt policy anchor gap := by
  by_cases hblank : ∀ c ∈ text, Text.isBlank c = true
  · rw [judge_of_blank hblank]
    split
    · rename_i heq
      simp [heq]
    · rename_i hne
      rw [Except.ok.injEq, Option.some.injEq]
      exact ⟨fun hv => ⟨hblank, hne, hv.symm⟩, fun hv => hv.2.2.symm⟩
  · -- stray text is a fault and no violation
    constructor
    · intro hv
      exact absurd (judge_eq_some_iff.1 hv).1 hblank
    · intro hv
      exact absurd hv.1 hblank

/-- A violation is a blank gap at a joint, in which the policy would leave something else. -/
theorem violates_iff_mended (h : s.InOrder) {v : Violation} :
    site.Violates s code policy v ↔
      ∃ b t u text, site.JointText s code b t u text ∧ (∀ c ∈ text, Text.isBlank c = true) ∧
        Gap.mended policy text ≠ text ∧
        v = site.violationAt policy t.span ⟨t.span.stop, u.span.start⟩ := by
  simp only [violates_iff_jointText h, judge_eq_some_iff_mended]

/-! ## Clean sites -/

/-- The site has an argument list, no check of it gives a fault, and no token lies in its gap. -/
structure Clean (site : Site) (s : TokenStream) (code : List Char) : Prop where
  hasArguments : site.argumentsStart.isSome = true
  faultless : ∀ policy, site.fault? s code policy = none
  tokenless : ∀ b t o, s.boundary site.callee = .ok b → s.get? b = some t →
    site.argumentsStart = some o → s.between ⟨t.span.stop, o⟩ = []

instance (site : Site) (s : TokenStream) (code : List Char) : Decidable (site.Clean s code) :=
  decidable_of_iff (site.argumentsStart.isSome = true ∧
      (site.fault? s code .never = none ∧ site.fault? s code .always = none) ∧
      ∀ b ∈ (s.boundary site.callee).toOption, ∀ t ∈ s.get? b, ∀ o ∈ site.argumentsStart,
        s.between ⟨t.span.stop, o⟩ = []) <| by
    constructor
    · rintro ⟨harguments, ⟨hnever, halways⟩, htokens⟩
      refine ⟨harguments, ?_, ?_⟩
      · intro policy
        cases policy with
        | never => exact hnever
        | always => exact halways
      · intro b t o hb ht ho
        exact htokens b (by rw [hb]; rfl) t ht o ho
    · rintro ⟨harguments, hfaultless, htokens⟩
      refine ⟨harguments, ⟨hfaultless .never, hfaultless .always⟩, ?_⟩
      intro b hb t ht o ho
      cases hboundary : s.boundary site.callee with
      | error fault =>
          rw [hboundary] at hb
          cases hb
      | ok b' =>
          rw [hboundary] at hb
          obtain rfl : b' = b := Option.some.inj hb
          exact htokens b' t o hboundary ht ho

theorem fault?_eq_none_iff :
    site.fault? s code policy = none ↔
      ∀ fault, site.check? s code policy ≠ some (.error fault) := by
  rw [fault?]
  rcases site.check? s code policy with _ | fault | found <;> simp

/-- A site with an argument list and without a joint has a token in its gap. -/
theorem between_ne_nil_of_joint_none (h : s.InOrder) {o : Nat} (ho : site.argumentsStart = some o)
    (hj : site.joint s = .ok none) :
    ∃ b t, s.boundary site.callee = .ok b ∧ s.get? b = some t ∧
      s.between ⟨t.span.stop, o⟩ ≠ [] := by
  rcases h.openParen_spec site with ⟨hnone, -⟩ | ⟨o', ho', ⟨p, hp, hopen⟩ | ⟨-, hopen⟩⟩
  · rw [ho] at hnone
    cases hnone
  · obtain rfl : o = o' := Option.some.inj (ho.symm.trans ho')
    simp only [joint, hopen] at hj
    cases hb : s.boundary site.callee with
    | error fault => simp [hb] at hj
    | ok b =>
        simp only [hb] at hj
        obtain ⟨t, ht⟩ := h.exists_get?_boundary hb
        obtain ⟨u, hu, -, rfl⟩ := hp
        refine ⟨b, t, rfl, ht, ?_⟩
        rw [h.between_stop_start ht hu]
        -- the tokens after the boundary and before the parenthesis are at least one
        have hp := lt_size_of_get? hu
        rw [size] at hp
        rw [← List.length_pos_iff, Array.length_toList, Array.size_extract]
        split at hj
        · cases hj
        · split at hj
          · cases hj
          · omega
  · simp [joint, hopen] at hj

/-- A clean site is one whose boundary and parenthesis are neighbours with white space only in
between. -/
theorem clean_iff_jointText (h : s.LiesIn code) :
    site.Clean s code ↔ ∃ b t u text, site.JointText s code b t u text ∧
      ∀ c ∈ text, Text.isBlank c = true := by
  constructor
  · intro hclean
    obtain ⟨o, ho⟩ := Option.isSome_iff_exists.1 hclean.hasArguments
    rcases check?_cases h site .never with ⟨fault, -, hc⟩ | ⟨hj, -⟩ | ⟨b, t, u, text, hjt, hc⟩
    · exact absurd hc (fault?_eq_none_iff.1 (hclean.faultless .never) fault)
    · obtain ⟨b, t, hb, ht, hne⟩ := between_ne_nil_of_joint_none h.toInOrder ho hj
      exact absurd (hclean.tokenless b t o hb ht ho) hne
    · refine ⟨b, t, u, text, hjt, ?_⟩
      by_contra hstray
      simp only [not_forall, Bool.not_eq_true] at hstray
      obtain ⟨c, hc', hne⟩ := hstray
      obtain ⟨fault, hfault⟩ := judge_eq_error_iff.2 ⟨c, hc', hne⟩
      rw [hfault] at hc
      exact fault?_eq_none_iff.1 (hclean.faultless .never) fault hc
  · rintro ⟨b, t, u, text, hjt, hblank⟩
    obtain ⟨hj, ht, hu, htext⟩ := id hjt
    obtain ⟨o, ho, ⟨u', hu', -, rfl⟩, hb⟩ := (joint_eq_some_iff h.toInOrder).1 hj
    obtain rfl : u = u' := Option.some.inj (hu.symm.trans hu')
    constructor
    · rw [ho]
      rfl
    · intro policy
      rw [fault?_eq_none_iff]
      intro fault hfault
      have hfaulty := (check?_eq_fault_iff h policy).1 ⟨fault, hfault⟩
      obtain ⟨b', t', u', text', hjt', c, hc, hne⟩ :=
        ((faulty_iff_jointText h.toInOrder).1 hfaulty).resolve_left (by simp [hj])
      obtain ⟨rfl, rfl, rfl⟩ := hjt.unique hjt'
      rw [hblank c hc] at hne
      cases hne
    · intro b' t' o hb' ht' ho'
      obtain rfl : b = b' := Except.ok.inj (hb.symm.trans hb')
      obtain rfl : t = t' := Option.some.inj (ht.symm.trans ht')
      obtain rfl : u.span.start = o := Option.some.inj (ho.symm.trans ho')
      rw [h.between_stop_start ht hu, Array.extract_empty_of_stop_le_start le_rfl]

/-- The call in `(f) (0)` is clean. -/
theorem clean_groupedSite : groupedSite.Clean groupedStream groupedCode := by
  have horder := groupedStream_liesIn.toInOrder
  obtain ⟨b, t, u, text, hjt, hblank, -⟩ := (violates_iff_mended horder).1 violates_groupedSite
  exact (clean_iff_jointText groupedStream_liesIn).2 ⟨b, t, u, text, hjt, hblank⟩

end Site

end ParenGap
