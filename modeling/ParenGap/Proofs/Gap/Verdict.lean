import Mathlib.Tactic
import ParenGap.Gap
import ParenGap.Proofs.Text.Slice
import ParenGap.Proofs.Token.Lookup

/-!
# The verdict on a call site

The check of a site reads offsets; here its answer is stated on token indexes. The joint of a site
is the token `b` that ends the callee, provided that the parenthesis is token `b + 1`
(`Site.joint`). A site without a joint has nothing to check or is faulty, whatever the text is; a
site with a joint is judged by the text of a single gap (`check?_of_joint_some`).

The main statement is `check?_verdict`: over a stream that lies in the text the check always
answers, it reports a violation exactly for a blank gap against the policy, and a fault exactly for
a parenthesis or a callee end that is missing, an inverted gap, or stray text in the gap.
-/

set_option autoImplicit false

namespace ParenGap

namespace TokenStream

variable {s : TokenStream} {site : Site} {callee : Span} {fault : Fault} {o p b : Nat}

/-- Token `p` is an opening parenthesis that starts at the offset `o`. -/
def OpensAt (s : TokenStream) (o p : Nat) : Prop :=
  ∃ t, s.get? p = some t ∧ t.opens = true ∧ t.span.start = o

/-- No token ends at the offset `n`. -/
def NoneEndsAt (s : TokenStream) (n : Nat) : Prop :=
  ∀ i t, s.get? i = some t → t.span.stop ≠ n

theorem InOrder.opensAt_unique {q : Nat} (h : s.InOrder) (hp : s.OpensAt o p)
    (hq : s.OpensAt o q) : p = q := by
  obtain ⟨t, ht, -, hto⟩ := hp
  obtain ⟨u, hu, -, huo⟩ := hq
  exact h.index_eq_of_start_eq ht hu (by omega)

/-- The parenthesis of a site is the opening parenthesis that starts where its arguments do. -/
theorem InOrder.openParen_spec (h : s.InOrder) (site : Site) :
    (site.argumentsStart = none ∧ s.openParen site = .ok none) ∨
      ∃ o, site.argumentsStart = some o ∧
        ((∃ p, s.OpensAt o p ∧ s.openParen site = .ok (some p)) ∨
          (∀ p, ¬ s.OpensAt o p) ∧ s.openParen site = .error (.parenMissing o)) := by
  cases ho : site.argumentsStart with
  | none => exact Or.inl ⟨rfl, by simp [openParen, ho]⟩
  | some o =>
      refine Or.inr ⟨o, rfl, ?_⟩
      simp only [openParen, ho]
      cases hp : s.startingAt? o with
      | none =>
          refine Or.inr ⟨?_, rfl⟩
          rintro p ⟨t, ht, -, hto⟩
          exact h.startingAt?_eq_none_iff.1 hp p t ht hto
      | some p =>
          obtain ⟨t, ht, hto⟩ := h.startingAt?_eq_some_iff.1 hp
          cases hopens : t.opens with
          | true =>
              refine Or.inl ⟨p, ⟨t, ht, hopens, hto⟩, ?_⟩
              rw [Option.filter_some_pos (by simp [ht, hopens])]
          | false =>
              -- no other token starts there
              refine Or.inr ⟨?_, by rw [Option.filter_some_neg (by simp [ht, hopens])]⟩
              rintro q ⟨u, hu, huo, hus⟩
              obtain rfl := h.index_eq_of_start_eq ht hu (by omega)
              rw [ht] at hu
              cases hu
              simp [hopens] at huo

/-- The next grouping parenthesis is the code right after the token, closes, and has a partner that
opens before the callee starts. -/
theorem grouping?_eq_some_iff {start next : Nat} :
    s.grouping? start b = some next ↔ ∃ t closer i opener, s.get? b = some t ∧
      s.codeAfter? t.span.stop = some next ∧ s.get? next = some closer ∧
      s.partner? next = some i ∧ s.get? i = some opener ∧
      closer.closes = true ∧ opener.span.start < start ∧ b < next := by
  simp only [grouping?, Option.bind_eq_some_iff, Option.ite_none_right_eq_some, Option.some.injEq,
    Bool.and_eq_true, decide_eq_true_eq]
  constructor
  · rintro ⟨t, ht, m, hm, closer, hcloser, i, hi, opener, hopener, ⟨⟨hc, hstart⟩, hlt⟩, rfl⟩
    exact ⟨t, closer, i, opener, ht, hm, hcloser, hi, hopener, hc, hstart, hlt⟩
  · rintro ⟨t, closer, i, opener, ht, hm, hcloser, hi, hopener, hc, hstart, hlt⟩
    exact ⟨t, ht, next, hm, closer, hcloser, i, hi, opener, hopener, ⟨⟨hc, hstart⟩, hlt⟩, rfl⟩

/-- No parenthesis groups a callee next if what comes after the token does not close. -/
theorem grouping?_eq_none_of_next {start : Nat} {t : Token} (ht : s.get? b = some t)
    (hnext : ∀ i u, s.codeAfter? t.span.stop = some i → s.get? i = some u → u.closes = false) :
    s.grouping? start b = none := by
  rw [Option.eq_none_iff_forall_ne_some]
  intro i hi
  obtain ⟨t', closer, -, -, ht', hcode, hcloser, -, -, hc, -⟩ := grouping?_eq_some_iff.1 hi
  obtain rfl : t = t' := Option.some.inj (ht.symm.trans ht')
  rw [hnext i closer hcode hcloser] at hc
  cases hc

theorem outermost_eq_self {start : Nat} (hb : s.grouping? start b = none) :
    s.outermost start b = b := by
  rw [outermost]
  split
  · rfl
  · rename_i next hnext
    rw [hb] at hnext
    cases hnext

theorem outermost_eq_next {start next : Nat} (hb : s.grouping? start b = some next) :
    s.outermost start b = s.outermost start next := by
  rw [outermost]
  split
  · rename_i hnone
    rw [hb] at hnone
    cases hnone
  · rename_i next' hnext
    obtain rfl : next = next' := by simpa [hb] using hnext
    rfl

theorem outermost_lt_size {start : Nat} (hb : b < s.size) : s.outermost start b < s.size := by
  fun_induction outermost s start b with
  | case1 b _ => exact hb
  | case2 b next hnext ih => exact ih (grouping?_bounds hnext).2

/-- The boundary of a callee whose last token is known. -/
theorem InOrder.boundary_eq_ok {t : Token} (h : s.InOrder) (ht : s.get? b = some t)
    (hstop : t.span.stop = callee.stop) :
    s.boundary callee = .ok (s.outermost callee.start b) := by
  simp only [boundary, h.endingAt?_eq_some_iff.2 ⟨t, ht, hstop⟩]

/-- The boundary of a callee is the outermost grouping parenthesis after the token that ends it. -/
theorem InOrder.boundary_spec (h : s.InOrder) (callee : Span) :
    (∃ i t, s.get? i = some t ∧ t.span.stop = callee.stop ∧
        s.boundary callee = .ok (s.outermost callee.start i)) ∨
      s.NoneEndsAt callee.stop ∧ s.boundary callee = .error (.calleeEndMissing callee.stop) := by
  cases hi : s.endingAt? callee.stop with
  | none =>
      exact Or.inr ⟨h.endingAt?_eq_none_iff.1 hi, by simp [boundary, hi]⟩
  | some i =>
      obtain ⟨t, ht, hstop⟩ := h.endingAt?_eq_some_iff.1 hi
      exact Or.inl ⟨i, t, ht, hstop, h.boundary_eq_ok ht hstop⟩

theorem InOrder.exists_get?_boundary (h : s.InOrder) (hb : s.boundary callee = .ok b) :
    ∃ t, s.get? b = some t := by
  rcases h.boundary_spec callee with ⟨i, t, ht, -, hi⟩ | ⟨-, herr⟩
  · rw [hb, Except.ok.injEq] at hi
    rw [hi]
    exact exists_get?_of_lt_size (outermost_lt_size (lt_size_of_get? ht))
  · rw [hb] at herr
    cases herr

end TokenStream

namespace Site

open TokenStream

variable {s : TokenStream} {code : List Char} {site : Site} {policy : Policy} {fault : Fault}
  {o p b : Nat} {t u : Token}

/-- The index of the token that ends the callee, if the parenthesis is the token right after it.
There is none if the site has no parenthesis, or if tokens lie in between. -/
def joint (site : Site) (s : TokenStream) : Except Fault (Option Nat) :=
  match s.openParen site with
  | .error fault => .error fault
  | .ok none => .ok none
  | .ok (some p) =>
      match s.boundary site.callee with
      | .error fault => .error fault
      | .ok b =>
          if p ≤ b then
            .error (.strayText s.tokens[b]!.span.stop s.tokens[p]!.span.start)
          else if p = b + 1 then .ok (some b)
          else .ok none

/-- What is made of a gap that holds no token, by its text. -/
def judge (site : Site) (policy : Policy) (anchor gap : Span) (text : List Char) :
    Except Fault (Option Violation) :=
  if text.all Text.isBlank then
    match policy, text.isEmpty with
    | .never, false => .ok (some ⟨.unexpectedSpace, site.kind, anchor, gap, ⟨gap, []⟩⟩)
    | .always, true => .ok (some ⟨.missingSpace, site.kind, anchor, gap, ⟨gap, [' ']⟩⟩)
    | _, _ => .ok none
  else
    .error (.strayText gap.start gap.stop)

theorem getElem!_of_get? (h : s.get? b = some t) : s.tokens[b]! = t := by
  obtain ⟨hb, rfl⟩ := Array.getElem?_eq_some_iff.1 h
  exact getElem!_pos s.tokens b hb

/-- The joint of a site is where its callee and its parenthesis are neighbours. -/
theorem joint_eq_some_iff (h : s.InOrder) :
    site.joint s = .ok (some b) ↔
      ∃ o, site.argumentsStart = some o ∧ s.OpensAt o (b + 1) ∧
        s.boundary site.callee = .ok b := by
  rcases h.openParen_spec site with ⟨ho, hopen⟩ | ⟨o, ho, ⟨p, hp, hopen⟩ | ⟨hnone, hopen⟩⟩
  · simp [joint, hopen, ho]
  · simp only [joint, hopen, ho, Option.some.injEq, exists_eq_left']
    cases hb : s.boundary site.callee with
    | error fault => simp
    | ok b' =>
        simp only [Except.ok.injEq]
        constructor
        · intro hjoint
          split at hjoint
          · cases hjoint
          · split at hjoint
            · rename_i hpb
              cases hjoint
              exact ⟨hpb ▸ hp, rfl⟩
            · cases hjoint
        · rintro ⟨hp', rfl⟩
          obtain rfl := h.opensAt_unique hp hp'
          simp
  · simp [joint, hopen, ho, hnone]

/-- A site without a joint is faulty if its parenthesis or its callee's end is missing, or if the
two are inverted. -/
theorem joint_eq_error_iff (h : s.InOrder) :
    (∃ fault, site.joint s = .error fault) ↔
      ∃ o, site.argumentsStart = some o ∧
        ((∀ p, ¬ s.OpensAt o p) ∨ s.NoneEndsAt site.callee.stop ∨
          ∃ p b, s.OpensAt o p ∧ s.boundary site.callee = .ok b ∧ p ≤ b) := by
  rcases h.openParen_spec site with ⟨ho, hopen⟩ | ⟨o, ho, ⟨p, hp, hopen⟩ | ⟨hnone, hopen⟩⟩
  · simp [joint, hopen, ho]
  · -- the parenthesis is found, so that the callee decides
    simp only [joint, hopen, ho, Option.some.injEq, exists_eq_left']
    rcases h.boundary_spec site.callee with ⟨i, t, ht, hstop, hb⟩ | ⟨hnone, hb⟩
    · have hends : ¬ s.NoneEndsAt site.callee.stop := fun hnone => hnone i t ht hstop
      simp only [hb, Except.ok.injEq, hends, false_or]
      constructor
      · rintro ⟨fault, hfault⟩
        split at hfault
        · rename_i hpb
          exact Or.inr ⟨p, _, hp, rfl, hpb⟩
        · split at hfault <;> cases hfault
      · rintro (hnone | ⟨q, b, hq, rfl, hqb⟩)
        · exact absurd hp (hnone p)
        · obtain rfl := h.opensAt_unique hp hq
          rw [if_pos hqb]
          exact ⟨_, rfl⟩
    · simp [hb, hnone]
  · simp [joint, hopen, ho, hnone]

/-! ## The three places of a parenthesis -/

theorem exists_slice?_of_le {n k : Nat} (h : s.LiesIn code) (ht : s.get? b = some t)
    (hu : s.get? p = some u) (hn : n = t.span.stop) (hk : k = u.span.start) (hle : n ≤ k) :
    ∃ text, Text.slice? code n k = some text := by
  subst hn hk
  have hplace := (Text.isPlace_of_slice? (h.texts t (mem_of_get? ht))).2
  have hplace' := (Text.isPlace_of_slice? (h.texts u (mem_of_get? hu))).1
  exact hplace.exists_slice? hplace' hle

/-- A gap whose parenthesis does not come after its boundary is inverted. -/
theorem measure?_of_le (h : s.InOrder) (ht : s.get? b = some t) (hu : s.get? p = some u)
    (hpb : p ≤ b) :
    Gap.measure? s code b p = some (.error (.strayText t.span.stop u.span.start)) := by
  have hlt : u.span.start < t.span.stop := by
    have hu' := h.start_lt_stop hu
    have hstop := h.stop_lt_stop_iff ht hu
    omega
  simp [Gap.measure?, ht, hu, hlt]

/-- A gap whose parenthesis comes after further tokens holds a comment or code. -/
theorem exists_measure?_of_lt (h : s.LiesIn code) (ht : s.get? b = some t)
    (hu : s.get? p = some u) (hbp : b + 1 < p) :
    ∃ gap, Gap.measure? s code b p = some (.ok gap) ∧
      (gap.hasComment || gap.hasCode) = true := by
  have hle := h.stop_le_start ht hu (by omega)
  obtain ⟨text, htext⟩ := exists_slice?_of_le h ht hu rfl rfl hle
  have hinside := h.between_stop_start ht hu
  obtain ⟨v, rest, hv⟩ : ∃ v rest, (s.tokens.extract (b + 1) p).toList = v :: rest := by
    have hp := lt_size_of_get? hu
    rw [size] at hp
    apply List.exists_cons_of_ne_nil
    rw [← List.length_pos_iff, Array.length_toList, Array.size_extract]
    omega
  rw [hv] at hinside
  refine ⟨⟨⟨t.span.stop, u.span.start⟩, text, (v :: rest).any Token.isComment,
    (v :: rest).any fun w => !w.isComment⟩, ?_, ?_⟩
  · simp only [Gap.measure?, ht, hu, Option.bind_some, if_neg (Nat.not_lt.2 hle), htext, hinside,
      List.isEmpty_cons, Bool.false_and, Bool.false_eq_true, if_false, Option.map_some]
  · cases hc : v.isComment <;> simp [hc]

/-- A gap between neighbours holds no token, and its text alone is looked at. -/
theorem measure?_succ (h : s.LiesIn code) (ht : s.get? b = some t) (hu : s.get? (b + 1) = some u) :
    ∃ text, Text.slice? code t.span.stop u.span.start = some text ∧
      Gap.measure? s code b (b + 1) = some
        (if text.all Text.isBlank then .ok ⟨⟨t.span.stop, u.span.start⟩, text, false, false⟩
          else .error (.strayText t.span.stop u.span.start)) := by
  have hle := h.stop_le_start ht hu (by omega)
  obtain ⟨text, htext⟩ := exists_slice?_of_le h ht hu rfl rfl hle
  have hinside := h.between_stop_start ht hu
  rw [Array.extract_empty_of_stop_le_start (by omega)] at hinside
  refine ⟨text, htext, ?_⟩
  simp only [Gap.measure?, ht, hu, Option.bind_some, if_neg (Nat.not_lt.2 hle), htext, hinside,
    Option.map_some]
  cases hblank : text.all Text.isBlank <;> simp

/-- The verdict on a gap without tokens depends on whether it is empty. -/
theorem verdict_of_no_token (span : Span) (text : List Char) (policy : Policy) :
    (⟨span, text, false, false⟩ : Gap).verdict policy =
      match policy, span.isEmpty with
      | .never, false => .defective .unexpectedSpace
      | .always, true => .defective .missingSpace
      | _, _ => .compliant := rfl

/-! ## The check by the joint -/

theorem check?_of_joint_error (h : s.LiesIn code) (hj : site.joint s = .error fault) :
    site.check? s code policy = some (.error fault) := by
  rcases h.openParen_spec site with ⟨ho, hopen⟩ | ⟨o, ho, ⟨p, hp, hopen⟩ | ⟨hnone, hopen⟩⟩
  · simp [joint, hopen] at hj
  · simp only [joint, hopen] at hj
    simp only [check?, hopen]
    cases hb : s.boundary site.callee with
    | error fault' => simpa [hb] using hj
    | ok b =>
        simp only [hb] at hj ⊢
        split at hj
        · rename_i hpb
          obtain ⟨t, ht⟩ := h.exists_get?_boundary hb
          obtain ⟨u, hu, -, -⟩ := hp
          rw [getElem!_of_get? ht, getElem!_of_get? hu, Except.error.injEq] at hj
          rw [ht, Option.bind_some, measure?_of_le h.toInOrder ht hu hpb, ← hj]
          rfl
        · split at hj <;> cases hj
  · simpa [joint, check?, hopen] using hj

theorem check?_of_joint_none (h : s.LiesIn code) (hj : site.joint s = .ok none) :
    site.check? s code policy = some (.ok none) := by
  rcases h.openParen_spec site with ⟨ho, hopen⟩ | ⟨o, ho, ⟨p, hp, hopen⟩ | ⟨hnone, hopen⟩⟩
  · simp [check?, hopen]
  · simp only [joint, hopen] at hj
    simp only [check?, hopen]
    cases hb : s.boundary site.callee with
    | error fault => simp [hb] at hj
    | ok b =>
        simp only [hb] at hj ⊢
        split at hj
        · cases hj
        · split at hj
          · cases hj
          · rename_i hpb hne
            obtain ⟨t, ht⟩ := h.exists_get?_boundary hb
            obtain ⟨u, hu, -, -⟩ := hp
            obtain ⟨gap, hgap, hskip⟩ := exists_measure?_of_lt h ht hu (by omega)
            have hverdict : gap.verdict policy = .skipped := if_pos hskip
            simp [ht, hgap, hverdict, Except.map]
  · simp [joint, hopen] at hj

/-- A site with a joint is judged by the text between two neighbours. -/
theorem check?_of_joint_some (h : s.LiesIn code) (hj : site.joint s = .ok (some b))
    (policy : Policy) :
    ∃ t u text, s.get? b = some t ∧ s.get? (b + 1) = some u ∧
      Text.slice? code t.span.stop u.span.start = some text ∧
      site.check? s code policy =
        some (site.judge policy t.span ⟨t.span.stop, u.span.start⟩ text) := by
  obtain ⟨o, ho, hopens, hb⟩ := (joint_eq_some_iff h.toInOrder).1 hj
  obtain ⟨t, ht⟩ := h.exists_get?_boundary hb
  have hopen : s.openParen site = .ok (some (b + 1)) := by
    rcases h.openParen_spec site with ⟨ho', -⟩ | ⟨o', ho', hcases⟩
    · simp [ho] at ho'
    · obtain rfl : o = o' := by simpa [ho] using ho'
      rcases hcases with ⟨p, hp, hopen⟩ | ⟨hnone, -⟩
      · rw [hopen, h.opensAt_unique hp hopens]
      · exact absurd hopens (hnone _)
  obtain ⟨u, hu, -, -⟩ := hopens
  obtain ⟨text, htext, hmeasure⟩ := measure?_succ h ht hu
  refine ⟨t, u, text, ht, hu, htext, ?_⟩
  simp only [check?, hopen, hb, ht, Option.bind_some, hmeasure, Option.map_some]
  have hlen := Text.add_byteLength_of_slice? htext
  -- the two spans meet exactly if there is no text in between
  have hempty : text.isEmpty = decide (u.span.start ≤ t.span.stop) := by
    rw [Bool.eq_iff_iff, decide_eq_true_eq, List.isEmpty_iff, ← Text.byteLength_eq_zero_iff]
    omega
  unfold judge
  cases text.all Text.isBlank with
  | false => rfl
  | true =>
      simp only [if_true, Except.map, verdict_of_no_token, Span.isEmpty, ← hempty]
      cases policy <;> cases text.isEmpty <;> rfl

/-! ## The verdict, exactly -/

/-- The site has a blank gap between neighbours that is not as the policy asks for, and `v` is what
is reported of it. -/
def Violates (site : Site) (s : TokenStream) (code : List Char) (policy : Policy)
    (v : Violation) : Prop :=
  ∃ o b before text, site.argumentsStart = some o ∧ s.OpensAt o (b + 1) ∧
    s.boundary site.callee = .ok b ∧ s.get? b = some before ∧
    Text.slice? code before.span.stop o = some text ∧ (∀ c ∈ text, Text.isBlank c = true) ∧
    v.callKind = site.kind ∧ v.anchor = before.span ∧ v.gap = ⟨before.span.stop, o⟩ ∧
    v.edit.span = v.gap ∧
    match policy with
    | .never => text ≠ [] ∧ v.defect = .unexpectedSpace ∧ v.edit.replacement = []
    | .always => text = [] ∧ v.defect = .missingSpace ∧ v.edit.replacement = [' ']

/-- The site has arguments, and their parenthesis or the end of the callee is missing, or the
parenthesis does not come after the boundary, or it comes right after it but with stray text. -/
def Faulty (site : Site) (s : TokenStream) (code : List Char) : Prop :=
  ∃ o, site.argumentsStart = some o ∧
    ((∀ p, ¬ s.OpensAt o p) ∨ s.NoneEndsAt site.callee.stop ∨
      ∃ p b, s.OpensAt o p ∧ s.boundary site.callee = .ok b ∧
        (p ≤ b ∨ p = b + 1 ∧ ∃ before text, s.get? b = some before ∧
          Text.slice? code before.span.stop o = some text ∧ ∃ c ∈ text, Text.isBlank c = false))

theorem judge_eq_some_iff {anchor gap : Span} {text : List Char} {v : Violation} :
    site.judge policy anchor gap text = .ok (some v) ↔
      (∀ c ∈ text, Text.isBlank c = true) ∧ v.callKind = site.kind ∧ v.anchor = anchor ∧
        v.gap = gap ∧ v.edit.span = v.gap ∧
        match policy with
        | .never => text ≠ [] ∧ v.defect = .unexpectedSpace ∧ v.edit.replacement = []
        | .always => text = [] ∧ v.defect = .missingSpace ∧ v.edit.replacement = [' '] := by
  obtain ⟨defect, callKind, anchor', gap', span, replacement⟩ := v
  unfold judge
  rw [← List.all_eq_true]
  cases hblank : text.all Text.isBlank with
  | false => simp
  | true =>
      cases policy <;> cases text <;>
        simp only [List.isEmpty_nil, List.isEmpty_cons, if_true, Except.ok.injEq,
          Option.some.injEq, Violation.mk.injEq, Edit.mk.injEq, reduceCtorEq] <;>
        grind

theorem judge_eq_error_iff {anchor gap : Span} {text : List Char} :
    (∃ fault, site.judge policy anchor gap text = .error fault) ↔
      ∃ c ∈ text, Text.isBlank c = false := by
  unfold judge
  cases hblank : text.all Text.isBlank with
  | false =>
      simp only [Bool.false_eq_true, if_false, Except.error.injEq, exists_eq', true_iff]
      simpa using hblank
  | true =>
      have hall : ∀ c ∈ text, Text.isBlank c = true := by simpa using hblank
      constructor
      · rintro ⟨fault, hfault⟩
        rw [if_pos rfl] at hfault
        split at hfault <;> cases hfault
      · rintro ⟨c, hc, hne⟩
        rw [hall c hc] at hne
        cases hne

/-- The two neighbours at a joint and the text between them. -/
def JointText (site : Site) (s : TokenStream) (code : List Char) (b : Nat) (t u : Token)
    (text : List Char) : Prop :=
  site.joint s = .ok (some b) ∧ s.get? b = some t ∧ s.get? (b + 1) = some u ∧
    Text.slice? code t.span.stop u.span.start = some text

theorem violates_iff_jointText (h : s.InOrder) {v : Violation} :
    site.Violates s code policy v ↔
      ∃ b t u text, site.JointText s code b t u text ∧
        site.judge policy t.span ⟨t.span.stop, u.span.start⟩ text = .ok (some v) := by
  constructor
  · rintro ⟨o, b, t, text, ho, hopens, hb, ht, htext, hjudge⟩
    have hj := (joint_eq_some_iff h).2 ⟨o, ho, hopens, hb⟩
    obtain ⟨u, hu, -, rfl⟩ := hopens
    exact ⟨b, t, u, text, ⟨hj, ht, hu, htext⟩, judge_eq_some_iff.2 hjudge⟩
  · rintro ⟨b, t, u, text, ⟨hj, ht, hu, htext⟩, hjudge⟩
    obtain ⟨o, ho, hopens, hb⟩ := (joint_eq_some_iff h).1 hj
    obtain ⟨u', hu', -, rfl⟩ := id hopens
    obtain rfl : u = u' := by simpa [hu] using hu'
    exact ⟨_, b, t, text, ho, hopens, hb, ht, htext, judge_eq_some_iff.1 hjudge⟩

theorem faulty_iff_jointText (h : s.InOrder) :
    site.Faulty s code ↔
      (∃ fault, site.joint s = .error fault) ∨
        ∃ b t u text, site.JointText s code b t u text ∧ ∃ c ∈ text, Text.isBlank c = false := by
  rw [joint_eq_error_iff h]
  constructor
  · rintro ⟨o, ho, hnone | hnone | ⟨p, b, hopens, hb, hpb | ⟨rfl, t, text, ht, htext, hc⟩⟩⟩
    · exact Or.inl ⟨o, ho, Or.inl hnone⟩
    · exact Or.inl ⟨o, ho, Or.inr (Or.inl hnone)⟩
    · exact Or.inl ⟨o, ho, Or.inr (Or.inr ⟨p, b, hopens, hb, hpb⟩)⟩
    · have hj := (joint_eq_some_iff h).2 ⟨o, ho, hopens, hb⟩
      obtain ⟨u, hu, -, rfl⟩ := hopens
      exact Or.inr ⟨b, t, u, text, ⟨hj, ht, hu, htext⟩, hc⟩
  · rintro (⟨o, ho, hnone | hnone | ⟨p, b, hopens, hb, hpb⟩⟩ | ⟨b, t, u, text, hjt, hc⟩)
    · exact ⟨o, ho, Or.inl hnone⟩
    · exact ⟨o, ho, Or.inr (Or.inl hnone)⟩
    · exact ⟨o, ho, Or.inr (Or.inr ⟨p, b, hopens, hb, Or.inl hpb⟩)⟩
    · obtain ⟨hj, ht, hu, htext⟩ := hjt
      obtain ⟨o, ho, hopens, hb⟩ := (joint_eq_some_iff h).1 hj
      obtain ⟨u', hu', -, rfl⟩ := id hopens
      obtain rfl : u = u' := by simpa [hu] using hu'
      exact ⟨_, ho, Or.inr (Or.inr ⟨b + 1, b, hopens, hb, Or.inr ⟨rfl, t, text, ht, htext, hc⟩⟩)⟩

/-- The check of a site is one of four: a fault without a joint, nothing without a joint, or the
judgement of the text at the joint. -/
theorem check?_cases (h : s.LiesIn code) (site : Site) (policy : Policy) :
    (∃ fault, site.joint s = .error fault ∧ site.check? s code policy = some (.error fault)) ∨
      (site.joint s = .ok none ∧ site.check? s code policy = some (.ok none)) ∨
        ∃ b t u text, site.JointText s code b t u text ∧
          site.check? s code policy =
            some (site.judge policy t.span ⟨t.span.stop, u.span.start⟩ text) := by
  cases hj : site.joint s with
  | error fault => exact Or.inl ⟨fault, rfl, check?_of_joint_error h hj⟩
  | ok joint =>
      cases joint with
      | none => exact Or.inr (Or.inl ⟨rfl, check?_of_joint_none h hj⟩)
      | some b =>
          obtain ⟨t, u, text, ht, hu, htext, hcheck⟩ := check?_of_joint_some h hj policy
          exact Or.inr (Or.inr ⟨b, t, u, text, ⟨hj, ht, hu, htext⟩, hcheck⟩)

theorem JointText.unique {b' : Nat} {t' u' : Token} {text text' : List Char}
    (h : site.JointText s code b t u text) (h' : site.JointText s code b' t' u' text') :
    t = t' ∧ u = u' ∧ text = text' := by
  obtain ⟨hj, ht, hu, htext⟩ := h
  obtain ⟨hj', ht', hu', htext'⟩ := h'
  obtain rfl : b = b' := by simpa [hj] using hj'
  obtain rfl : t = t' := by simpa [ht] using ht'
  obtain rfl : u = u' := by simpa [hu] using hu'
  exact ⟨rfl, rfl, by simpa [htext] using htext'⟩

theorem check?_eq_violation_iff (h : s.LiesIn code) {v : Violation} :
    site.check? s code policy = some (.ok (some v)) ↔ site.Violates s code policy v := by
  rw [violates_iff_jointText h.toInOrder]
  rcases check?_cases h site policy with ⟨fault, hj, hc⟩ | ⟨hj, hc⟩ | ⟨b, t, u, text, hjt, hc⟩
  · simp [hc, JointText, hj]
  · simp [hc, JointText, hj]
  · rw [hc, Option.some.injEq]
    refine ⟨fun hv => ⟨b, t, u, text, hjt, hv⟩, ?_⟩
    rintro ⟨b', t', u', text', hjt', hv⟩
    obtain ⟨rfl, rfl, rfl⟩ := hjt.unique hjt'
    exact hv

theorem check?_eq_fault_iff (h : s.LiesIn code) (policy : Policy) :
    (∃ fault, site.check? s code policy = some (.error fault)) ↔ site.Faulty s code := by
  rw [faulty_iff_jointText h.toInOrder]
  rcases check?_cases h site policy with ⟨fault, hj, hc⟩ | ⟨hj, hc⟩ | ⟨b, t, u, text, hjt, hc⟩
  · simp [hc, hj]
  · simp [hc, JointText, hj]
  · simp only [hc, Option.some.injEq, judge_eq_error_iff, hjt.1, reduceCtorEq, exists_false,
      false_or]
    refine ⟨fun hstray => ⟨b, t, u, text, hjt, hstray⟩, ?_⟩
    rintro ⟨b', t', u', text', hjt', hstray⟩
    obtain ⟨rfl, rfl, rfl⟩ := hjt.unique hjt'
    exact hstray

/-- The verdict on a site over a stream that lies in the text: a violation exactly for a blank gap
between neighbours that is against the policy, a fault exactly for a site that does not line up with
the stream or has stray text in its gap, and nothing in all other cases. -/
theorem check?_verdict (h : s.LiesIn code) (site : Site) (policy : Policy) :
    (∀ v, site.check? s code policy = some (.ok (some v)) ↔ site.Violates s code policy v) ∧
      ((∃ fault, site.check? s code policy = some (.error fault)) ↔ site.Faulty s code) ∧
      (site.check? s code policy = some (.ok none) ↔
        (∀ v, ¬ site.Violates s code policy v) ∧ ¬ site.Faulty s code) := by
  refine ⟨fun v => check?_eq_violation_iff h, check?_eq_fault_iff h policy, ?_⟩
  simp only [← check?_eq_violation_iff h, ← check?_eq_fault_iff h policy]
  -- the check answers in any case, so that it is silent where it reports neither
  rcases check?_cases h site policy with ⟨fault, -, hc⟩ | ⟨-, hc⟩ | ⟨b, t, u, text, -, hc⟩
  · simp [hc]
  · simp [hc]
  · rw [hc]
    cases site.judge policy t.span ⟨t.span.stop, u.span.start⟩ text with
    | error fault => simp
    | ok found => cases found <;> simp

/-! ## A grouped callee -/

/-- The text `(f) (0)`. -/
def groupedCode : List Char := ['(', 'f', ')', ' ', '(', '0', ')']

/-- The tokens of `(f) (0)`. -/
def groupedStream : TokenStream := TokenStream.ofList
  [⟨.punctuator, ⟨0, 1⟩, ['(']⟩, ⟨.identifier, ⟨1, 2⟩, ['f']⟩, ⟨.punctuator, ⟨2, 3⟩, [')']⟩,
    ⟨.punctuator, ⟨4, 5⟩, ['(']⟩, ⟨.literal, ⟨5, 6⟩, ['0']⟩, ⟨.punctuator, ⟨6, 7⟩, [')']⟩]

/-- The call in `(f) (0)`. -/
def groupedSite : Site := ⟨.call, ⟨0, 7⟩, ⟨1, 2⟩, some 4⟩

theorem groupedStream_liesIn : groupedStream.LiesIn groupedCode where
  nonempty := by decide
  ordered := by decide
  texts := by decide

theorem boundary_groupedSite : groupedStream.boundary groupedSite.callee = .ok 2 := by
  have hends : groupedStream.endingAt? 2 = some 1 :=
    groupedStream_liesIn.endingAt?_eq_some_iff.2 ⟨_, rfl, rfl⟩
  have hclosing : groupedStream.codeAfter? 2 = some 2 :=
    groupedStream_liesIn.codeAfter?_stop_of_next (b := 1) rfl rfl rfl
  have hopening : groupedStream.codeAfter? 3 = some 3 :=
    groupedStream_liesIn.codeAfter?_stop_of_next (b := 2) rfl rfl rfl
  have hgroup : groupedStream.grouping? 1 1 = some 2 :=
    grouping?_eq_some_iff.2 ⟨_, _, 0, _, rfl, hclosing, rfl, rfl, rfl, rfl, by decide, by decide⟩
  have hlast : groupedStream.grouping? 1 2 = none := by
    refine grouping?_eq_none_of_next (t := ⟨.punctuator, ⟨2, 3⟩, [')']⟩) rfl fun i u hi hu => ?_
    obtain rfl : 3 = i := Option.some.inj (hopening.symm.trans hi)
    obtain rfl := Option.some.inj hu
    rfl
  have hboundary : groupedStream.boundary groupedSite.callee =
      .ok (groupedStream.outermost 1 1) := by
    simp [boundary, groupedSite, hends]
  rw [hboundary, outermost_eq_next hgroup, outermost_eq_self hlast]

/-- The space after the grouping parenthesis is against `never`. -/
theorem violates_groupedSite :
    groupedSite.Violates groupedStream groupedCode .never
      ⟨.unexpectedSpace, .call, ⟨2, 3⟩, ⟨3, 4⟩, ⟨⟨3, 4⟩, []⟩⟩ :=
  ⟨4, 2, ⟨.punctuator, ⟨2, 3⟩, [')']⟩, [' '], rfl, ⟨_, rfl, rfl, rfl⟩, boundary_groupedSite, rfl,
    by decide, List.forall_mem_singleton.2 rfl, rfl, rfl, rfl, rfl, by decide, rfl, rfl⟩

/-- In `(f) (0)` the space after the grouping parenthesis is reported and deleted. -/
theorem check?_verdict_groupedSite :
    groupedStream.LiesIn groupedCode ∧
      groupedSite.check? groupedStream groupedCode .never =
        some (.ok (some ⟨.unexpectedSpace, .call, ⟨2, 3⟩, ⟨3, 4⟩, ⟨⟨3, 4⟩, []⟩⟩)) := by
  refine ⟨groupedStream_liesIn, ?_⟩
  exact ((check?_verdict groupedStream_liesIn groupedSite .never).1 _).2 violates_groupedSite

end Site

end ParenGap
