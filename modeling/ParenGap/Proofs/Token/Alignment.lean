import Mathlib.Data.List.Forall2
import Mathlib.Tactic
import ParenGap.Proofs.Token.Lookup

/-!
# Streams that differ in spacing only

Two streams are alike if their tokens have the same kinds, texts and lengths one by one, so that
they differ only in what stands between the tokens. Alike streams have the same partners
(`Alike.partner?_eq`) and the same next code token (`Alike.codeFrom?_eq`).

Offsets into the two texts are aligned if they lie equally deep inside of tokens with the same
index. Aligned offsets have the same order in both texts, so that every comparison with a token
comes out the same (`AlignedStart.lt_iff`, `AlignedStop.lt_iff`).
-/

set_option autoImplicit false

namespace ParenGap

/-- The tokens have the same kind, the same text and the same length. -/
structure Token.Alike (t t' : Token) : Prop where
  kind_eq : t.kind = t'.kind
  text_eq : t.text = t'.text
  length_eq : t.span.length = t'.span.length

section Tokens

variable {t t' : Token}

theorem Token.Alike.symm (h : t.Alike t') : t'.Alike t :=
  ⟨h.kind_eq.symm, h.text_eq.symm, h.length_eq.symm⟩

theorem Token.Alike.trans {t'' : Token} (h : t.Alike t') (h' : t'.Alike t'') : t.Alike t'' :=
  ⟨h.kind_eq.trans h'.kind_eq, h.text_eq.trans h'.text_eq, h.length_eq.trans h'.length_eq⟩

theorem Token.Alike.opens_eq (h : t.Alike t') : t.opens = t'.opens := by
  rw [opens, opens, isPunctuator, isPunctuator, h.kind_eq, h.text_eq]

theorem Token.Alike.closes_eq (h : t.Alike t') : t.closes = t'.closes := by
  rw [closes, closes, isPunctuator, isPunctuator, h.kind_eq, h.text_eq]

theorem Token.Alike.isComment_eq (h : t.Alike t') : t.isComment = t'.isComment := by
  rw [isComment, isComment, h.kind_eq]

end Tokens

/-- Lists related one by one to a list in between are related one by one. -/
theorem forall₂_comp {α β γ : Type} {R : α → β → Prop} {S : β → γ → Prop} {xs : List α}
    {ys : List β} {zs : List γ} (h : List.Forall₂ R xs ys) (h' : List.Forall₂ S ys zs) :
    List.Forall₂ (Relation.Comp R S) xs zs := by
  induction h generalizing zs with
  | nil =>
      cases h'
      exact .nil
  | cons hxy _ ih =>
      cases h' with
      | cons hyz hrest => exact .cons ⟨_, hxy, hyz⟩ (ih hrest)

/-- Pairing looks at nothing but which tokens open and close. -/
theorem Pairing.pairFrom_eq_of_alike {ts us : List Token} (h : List.Forall₂ Token.Alike ts us)
    (i : Nat) (waiting : List Nat) (partners : Array (Option Nat)) :
    pairFrom ts i waiting partners = pairFrom us i waiting partners := by
  induction h generalizing i waiting partners with
  | nil => rfl
  | cons htu _ ih =>
      unfold pairFrom
      simp only [htu.opens_eq, htu.closes_eq, ih]

namespace TokenStream

/-- The tokens of the two streams are alike one by one. -/
def Alike (s s' : TokenStream) : Prop :=
  List.Forall₂ Token.Alike s.tokens.toList s'.tokens.toList

variable {s s' : TokenStream} {i j : Nat} {t t' u : Token}

theorem Alike.symm (h : s.Alike s') : s'.Alike s :=
  List.Forall₂.flip (h.imp fun _ _ htt' => htt'.symm)

theorem Alike.trans {s'' : TokenStream} (h : s.Alike s') (h' : s'.Alike s'') : s.Alike s'' :=
  (forall₂_comp h h').imp fun _ _ ⟨_, htt', htt''⟩ => htt'.trans htt''

theorem Alike.size_eq (h : s.Alike s') : s.size = s'.size := by
  have := List.Forall₂.length_eq h
  simpa [size] using this

theorem Alike.get? (h : s.Alike s') (ht : s.get? i = some t) (ht' : s'.get? i = some t') :
    t.Alike t' := by
  obtain ⟨hi, rfl⟩ := Array.getElem?_eq_some_iff.1 ht
  obtain ⟨hi', rfl⟩ := Array.getElem?_eq_some_iff.1 ht'
  exact List.Forall₂.get h (by simpa using hi) (by simpa using hi')

theorem Alike.exists_get? (h : s.Alike s') (ht : s.get? i = some t) :
    ∃ t', s'.get? i = some t' ∧ t.Alike t' := by
  have hi := lt_size_of_get? ht
  rw [h.size_eq] at hi
  obtain ⟨t', ht'⟩ := exists_get?_of_lt_size hi
  exact ⟨t', ht', h.get? ht ht'⟩

/-- Alike streams have the same partners. -/
theorem Alike.partner?_eq (h : s.Alike s') (i : Nat) : s.partner? i = s'.partner? i := by
  have hlen := List.Forall₂.length_eq h
  rw [partner?, partner?, s.partners_eq, s'.partners_eq, Pairing.partners, Pairing.partners,
    Pairing.pairFrom_eq_of_alike h, hlen]

/-- In alike streams the search for code comes to the same index. -/
theorem Alike.codeFrom?_eq_some (h : s.Alike s') (hi : s.codeFrom? i = some j) :
    s'.codeFrom? i = some j := by
  obtain ⟨hij, ⟨t, ht, hcode⟩, hbetween⟩ := codeFrom?_eq_some_iff.1 hi
  obtain ⟨t', ht', htt'⟩ := h.exists_get? ht
  refine codeFrom?_eq_some_iff.2 ⟨hij, ⟨t', ht', ?_⟩, ?_⟩
  · rw [← htt'.isComment_eq]
    exact hcode
  · intro k u hik hkj hu
    obtain ⟨u', hu', huu'⟩ := h.symm.exists_get? hu
    rw [huu'.isComment_eq]
    exact hbetween k u' hik hkj hu'

theorem Alike.codeFrom?_eq (h : s.Alike s') (i : Nat) : s.codeFrom? i = s'.codeFrom? i := by
  ext j
  exact ⟨h.codeFrom?_eq_some, h.symm.codeFrom?_eq_some⟩

/-! ## Aligned offsets -/

/-- The offsets lie equally far behind the starts of two tokens with the same index, before the stop
of the first one. -/
def AlignedStart (s s' : TokenStream) (n n' : Nat) : Prop :=
  ∃ i t t' d, s.get? i = some t ∧ s'.get? i = some t' ∧ n = t.span.start + d ∧
    n' = t'.span.start + d ∧ n < t.span.stop

/-- The offsets lie equally far behind the starts of two tokens with the same index, and up to the
stop of the first one. -/
def AlignedStop (s s' : TokenStream) (n n' : Nat) : Prop :=
  ∃ i t t' d, s.get? i = some t ∧ s'.get? i = some t' ∧ n = t.span.start + d ∧
    n' = t'.span.start + d ∧ 0 < d ∧ n ≤ t.span.stop

section Offsets

variable {m m' n n' : Nat}

theorem InOrder.alignedStart (hs : s.InOrder) (ht : s.get? i = some t)
    (ht' : s'.get? i = some t') : s.AlignedStart s' t.span.start t'.span.start :=
  ⟨i, t, t', 0, ht, ht', rfl, rfl, hs.start_lt_stop ht⟩

theorem Alike.alignedStop (h : s.Alike s') (hs : s.InOrder) (hs' : s'.InOrder)
    (ht : s.get? i = some t) (ht' : s'.get? i = some t') :
    s.AlignedStop s' t.span.stop t'.span.stop := by
  have hlt := hs.start_lt_stop ht
  have hlt' := hs'.start_lt_stop ht'
  have hlen := (h.get? ht ht').length_eq
  simp only [Span.length] at hlen
  exact ⟨i, t, t', t.span.stop - t.span.start, ht, ht', by omega, by omega, by omega, le_rfl⟩

theorem AlignedStart.symm (h : s.Alike s') (hs' : s'.InOrder) (hn : s.AlignedStart s' n n') :
    s'.AlignedStart s n' n := by
  obtain ⟨i, t, t', d, ht, ht', rfl, rfl, hlt⟩ := hn
  have hlt' := hs'.start_lt_stop ht'
  have hlen := (h.get? ht ht').length_eq
  simp only [Span.length] at hlen
  exact ⟨i, t', t, d, ht', ht, rfl, rfl, by omega⟩

theorem AlignedStop.symm (h : s.Alike s') (hs' : s'.InOrder) (hn : s.AlignedStop s' n n') :
    s'.AlignedStop s n' n := by
  obtain ⟨i, t, t', d, ht, ht', rfl, rfl, hpos, hle⟩ := hn
  have hlt' := hs'.start_lt_stop ht'
  have hlen := (h.get? ht ht').length_eq
  simp only [Span.length] at hlen
  exact ⟨i, t', t, d, ht', ht, rfl, rfl, hpos, by omega⟩

/-- Offsets in tokens with the same indexes, equally deep, have the same order in both texts, unless
the first one may be the stop of a token and the second one the start of a token. -/
theorem Alike.lt_iff_of_depths {u' : Token} {d e : Nat} (h : s.Alike s') (hs : s.InOrder)
    (hs' : s'.InOrder) (ht : s.get? i = some t) (ht' : s'.get? i = some t')
    (hu : s.get? j = some u) (hu' : s'.get? j = some u') (hd : t.span.start + d ≤ t.span.stop)
    (he : u.span.start + e ≤ u.span.stop) (hde : t.span.start + d < t.span.stop ∨ 0 < e) :
    t.span.start + d < u.span.start + e ↔ t'.span.start + d < u'.span.start + e := by
  have hlen := (h.get? ht ht').length_eq
  have hlen' := (h.get? hu hu').length_eq
  have hpos := hs'.start_lt_stop ht'
  have hpos' := hs'.start_lt_stop hu'
  simp only [Span.length] at hlen hlen'
  rcases Nat.lt_trichotomy i j with hij | rfl | hij
  · have := hs.stop_le_start ht hu hij
    have := hs'.stop_le_start ht' hu' hij
    omega
  · -- both lie in the same token, at depths that do not depend on the text
    obtain rfl : t = u := by simpa [ht] using hu
    obtain rfl : t' = u' := by simpa [ht'] using hu'
    omega
  · have := hs.stop_le_start hu ht hij
    have := hs'.stop_le_start hu' ht' hij
    omega

/-- Aligned starts have the same order in both texts. -/
theorem AlignedStart.lt_iff (h : s.Alike s') (hs : s.InOrder) (hs' : s'.InOrder)
    (hm : s.AlignedStart s' m m') (hn : s.AlignedStart s' n n') : m < n ↔ m' < n' := by
  obtain ⟨i, t, t', d, ht, ht', rfl, rfl, hlt⟩ := hm
  obtain ⟨j, u, u', e, hu, hu', rfl, rfl, hlt'⟩ := hn
  exact h.lt_iff_of_depths hs hs' ht ht' hu hu' hlt.le hlt'.le (Or.inl hlt)

/-- Aligned stops have the same order in both texts. -/
theorem AlignedStop.lt_iff (h : s.Alike s') (hs : s.InOrder) (hs' : s'.InOrder)
    (hm : s.AlignedStop s' m m') (hn : s.AlignedStop s' n n') : m < n ↔ m' < n' := by
  obtain ⟨i, t, t', d, ht, ht', rfl, rfl, -, hle⟩ := hm
  obtain ⟨j, u, u', e, hu, hu', rfl, rfl, hpos, hle'⟩ := hn
  exact h.lt_iff_of_depths hs hs' ht ht' hu hu' hle hle' (Or.inr hpos)

/-- A start and a stop that are aligned have the same order in both texts. -/
theorem AlignedStart.lt_stop_iff (h : s.Alike s') (hs : s.InOrder) (hs' : s'.InOrder)
    (hm : s.AlignedStart s' m m') (hn : s.AlignedStop s' n n') : m < n ↔ m' < n' := by
  obtain ⟨i, t, t', d, ht, ht', rfl, rfl, hlt⟩ := hm
  obtain ⟨j, u, u', e, hu, hu', rfl, rfl, -, hle⟩ := hn
  exact h.lt_iff_of_depths hs hs' ht ht' hu hu' hlt.le hle (Or.inl hlt)

theorem AlignedStart.eq_iff (h : s.Alike s') (hs : s.InOrder) (hs' : s'.InOrder)
    (hm : s.AlignedStart s' m m') (hn : s.AlignedStart s' n n') : m = n ↔ m' = n' := by
  have hlt := hm.lt_iff h hs hs' hn
  have hgt := hn.lt_iff h hs hs' hm
  omega

theorem AlignedStop.eq_iff (h : s.Alike s') (hs : s.InOrder) (hs' : s'.InOrder)
    (hm : s.AlignedStop s' m m') (hn : s.AlignedStop s' n n') : m = n ↔ m' = n' := by
  have hlt := hm.lt_iff h hs hs' hn
  have hgt := hn.lt_iff h hs hs' hm
  omega

end Offsets

end TokenStream

end ParenGap
