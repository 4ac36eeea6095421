import Mathlib.Tactic
import ParenGap.Text
import ParenGap.Token

/-!
# Look-ups in ordered token streams

Look-ups go by byte offsets; the statements here turn them into statements on indexes. Halving finds
the boundary of every test that is partitioned (`partitionPoint_spec`). In a stream with sorted
starts and sorted stops a look-up gives the first token with the asked offset, and none only if
there is none. In a stream of non-empty tokens that do not overlap (`InOrder`) offsets and indexes
carry the same order, so that the token after the stop of token `i` is token `i + 1`, and the tokens
between two tokens are those with an index in between.
-/

set_option autoImplicit false

namespace ParenGap

namespace Search

/-- A test that holds below every index at which it holds has a boundary. -/
theorem exists_boundary (p : Nat → Bool) (n : Nat)
    (hmono : ∀ i j, i ≤ j → j < n → p j = true → p i = true) :
    ∃ k, k ≤ n ∧ (∀ i, i < k → p i = true) ∧ ∀ i, k ≤ i → i < n → p i = false := by
  induction n with
  | zero => exact ⟨0, le_refl 0, fun i hi => absurd hi (Nat.not_lt_zero i), by omega⟩
  | succ n ih =>
      cases hp : p n with
      | true =>
          exact ⟨n + 1, le_refl _, fun i hi => hmono i n (by omega) (by omega) hp, by omega⟩
      | false =>
          obtain ⟨k, hk, hbelow, habove⟩ := ih fun i j hij hj => hmono i j hij (by omega)
          refine ⟨k, by omega, hbelow, fun i hki hi => ?_⟩
          rcases Nat.lt_succ_iff_lt_or_eq.1 hi with hi | rfl
          · exact habove i hki hi
          · exact hp

variable {α : Type} {xs : Array α} {p : α → Bool}

/-- The elements that satisfy a partitioned test are those below the partition point. -/
theorem partitionPoint_spec (h : xs.toList.Pairwise fun a b => p b = true → p a = true) :
    partitionPoint xs p ≤ xs.size ∧
      ∀ i x, xs[i]? = some x → (p x = true ↔ i < partitionPoint xs p) := by
  have hmono : ∀ i j, i ≤ j → j < xs.size →
      (fun i => xs[i]?.any p) j = true → (fun i => xs[i]?.any p) i = true := by
    intro i j hij hj hp
    rcases Nat.lt_or_eq_of_le hij with hlt | rfl
    · have hi : i < xs.size := by omega
      simp only [Array.getElem?_eq_getElem hi, Array.getElem?_eq_getElem hj, Option.any_some]
        at hp ⊢
      exact List.pairwise_iff_getElem.1 h i j hi hj hlt hp
    · exact hp
  obtain ⟨k, hk, hbelow, habove⟩ := exists_boundary _ xs.size hmono
  have hpoint : partitionPoint xs p = k := bisect_eq (Nat.zero_le k) hk hbelow habove
  rw [hpoint]
  refine ⟨hk, fun i x hx => ⟨fun hp => ?_, fun hi => ?_⟩⟩
  · by_contra hki
    have hfalse := habove i (by omega) (Array.getElem?_eq_some_iff.1 hx).1
    simp [hx, hp] at hfalse
  · simpa [hx] using hbelow i hi

/-- The partition point of a test that holds exactly below the index `k`. -/
theorem partitionPoint_eq {k : Nat} (hk : k ≤ xs.size)
    (hp : ∀ i x, xs[i]? = some x → (p x = true ↔ i < k)) : partitionPoint xs p = k := by
  refine bisect_eq (Nat.zero_le k) hk (fun i hi => ?_) fun i hki hi => ?_
  · have hget : xs[i]? = some xs[i] := Array.getElem?_eq_getElem (by omega)
    rw [hget, Option.any_some]
    exact (hp i _ hget).2 hi
  · have hget : xs[i]? = some xs[i] := Array.getElem?_eq_getElem hi
    rw [hget, Option.any_some, Bool.eq_false_iff]
    intro htrue
    have := (hp i _ hget).1 htrue
    omega

end Search

namespace TokenStream

open Search

/-- Both the starts and the stops of the tokens are in order. -/
structure Sorted (s : TokenStream) : Prop where
  starts : s.tokens.toList.Pairwise fun a b => a.span.start ≤ b.span.start
  stops : s.tokens.toList.Pairwise fun a b => a.span.stop ≤ b.span.stop

/-- The tokens cover some bytes each, and none starts before an earlier one has stopped. -/
structure InOrder (s : TokenStream) : Prop where
  nonempty : ∀ t ∈ s.tokens.toList, t.span.start < t.span.stop
  ordered : s.tokens.toList.Pairwise fun a b => a.span.stop ≤ b.span.start

/-- The tokens are in order, and every token has the characters that stand in its place. -/
structure LiesIn (s : TokenStream) (code : List Char) : Prop extends InOrder s where
  texts : ∀ t ∈ s.tokens.toList, Text.slice? code t.span.start t.span.stop = some t.text

section Lookup

variable {s : TokenStream} {offset i j b p : Nat} {t u : Token}

theorem mem_of_get? (h : s.get? i = some t) : t ∈ s.tokens.toList := by
  rw [get?, ← Array.getElem?_toList] at h
  exact List.mem_of_getElem? h

theorem exists_get?_of_mem (h : t ∈ s.tokens.toList) : ∃ i, s.get? i = some t := by
  obtain ⟨i, hi, rfl⟩ := List.getElem_of_mem h
  refine ⟨i, ?_⟩
  rw [get?, ← Array.getElem?_toList, List.getElem?_eq_getElem hi]

theorem lt_size_of_get? (h : s.get? i = some t) : i < s.size :=
  (Array.getElem?_eq_some_iff.1 h).1

theorem exists_get?_of_lt_size (h : i < s.size) : ∃ t, s.get? i = some t :=
  ⟨s.tokens[i], Array.getElem?_eq_getElem h⟩

theorem get?_rel_of_pairwise {r : Token → Token → Prop} (h : s.tokens.toList.Pairwise r)
    (hi : s.get? i = some t) (hj : s.get? j = some u) (hij : i < j) : r t u := by
  obtain ⟨hi', rfl⟩ := Array.getElem?_eq_some_iff.1 hi
  obtain ⟨hj', rfl⟩ := Array.getElem?_eq_some_iff.1 hj
  exact List.pairwise_iff_getElem.1 h i j hi' hj' hij

theorem InOrder.start_lt_stop (h : s.InOrder) (hi : s.get? i = some t) :
    t.span.start < t.span.stop :=
  h.nonempty t (mem_of_get? hi)

theorem InOrder.stop_le_start (h : s.InOrder) (hi : s.get? i = some t) (hj : s.get? j = some u)
    (hij : i < j) : t.span.stop ≤ u.span.start :=
  get?_rel_of_pairwise h.ordered hi hj hij

theorem InOrder.sorted (h : s.InOrder) : s.Sorted := by
  constructor
  · refine h.ordered.imp_of_mem fun ha _ hab => ?_
    have := h.nonempty _ ha
    omega
  · refine h.ordered.imp_of_mem fun _ hb hab => ?_
    have := h.nonempty _ hb
    omega

/-- Starts of tokens carry the order of their indexes. -/
theorem InOrder.start_lt_start_iff (h : s.InOrder) (hi : s.get? i = some t)
    (hj : s.get? j = some u) : t.span.start < u.span.start ↔ i < j := by
  have ht := h.start_lt_stop hi
  have hu := h.start_lt_stop hj
  rcases Nat.lt_trichotomy i j with hij | rfl | hij
  · have := h.stop_le_start hi hj hij
    omega
  · rw [hi] at hj
    cases hj
    omega
  · have := h.stop_le_start hj hi hij
    omega

/-- Stops of tokens carry the order of their indexes. -/
theorem InOrder.stop_lt_stop_iff (h : s.InOrder) (hi : s.get? i = some t)
    (hj : s.get? j = some u) : t.span.stop < u.span.stop ↔ i < j := by
  have ht := h.start_lt_stop hi
  have hu := h.start_lt_stop hj
  rcases Nat.lt_trichotomy i j with hij | rfl | hij
  · have := h.stop_le_start hi hj hij
    omega
  · rw [hi] at hj
    cases hj
    omega
  · have := h.stop_le_start hj hi hij
    omega

theorem InOrder.index_eq_of_start_eq (h : s.InOrder) (hi : s.get? i = some t)
    (hj : s.get? j = some u) (heq : t.span.start = u.span.start) : i = j := by
  have hij := h.start_lt_start_iff hi hj
  have hji := h.start_lt_start_iff hj hi
  omega

theorem InOrder.index_eq_of_stop_eq (h : s.InOrder) (hi : s.get? i = some t)
    (hj : s.get? j = some u) (heq : t.span.stop = u.span.stop) : i = j := by
  have hij := h.stop_lt_stop_iff hi hj
  have hji := h.stop_lt_stop_iff hj hi
  omega

end Lookup

/-! ## Look-ups by a measure -/

/-- The index of the first token whose measure is `n`, looked up by halving. -/
def findBy? (s : TokenStream) (measure : Token → Nat) (n : Nat) : Option Nat :=
  let i := partitionPoint s.tokens fun t => decide (measure t < n)
  if (s.get? i).any fun t => measure t == n then some i else none

theorem endingAt?_eq_findBy? (s : TokenStream) (n : Nat) :
    s.endingAt? n = s.findBy? (fun t => t.span.stop) n := rfl

theorem startingAt?_eq_findBy? (s : TokenStream) (n : Nat) :
    s.startingAt? n = s.findBy? (fun t => t.span.start) n := rfl

section Measure

variable {s : TokenStream} {measure : Token → Nat} {n i : Nat}

/-- Of a measure that is in order: the tokens below `n` are those below the point that halving
finds. -/
theorem partitionPoint_lt_spec (h : s.tokens.toList.Pairwise fun a b => measure a ≤ measure b)
    (n : Nat) :
    (partitionPoint s.tokens fun t => decide (measure t < n)) ≤ s.size ∧
      ∀ i t, s.get? i = some t → (decide (measure t < n) = true ↔
        i < partitionPoint s.tokens fun t => decide (measure t < n)) := by
  apply partitionPoint_spec
  refine h.imp fun hab hb => ?_
  rw [decide_eq_true_eq] at hb ⊢
  exact hab.trans_lt hb

/-- Of a measure that is in order: the tokens up to `n` are those below the point that halving
finds. -/
theorem partitionPoint_le_spec (h : s.tokens.toList.Pairwise fun a b => measure a ≤ measure b)
    (n : Nat) :
    (partitionPoint s.tokens fun t => decide (measure t ≤ n)) ≤ s.size ∧
      ∀ i t, s.get? i = some t → (decide (measure t ≤ n) = true ↔
        i < partitionPoint s.tokens fun t => decide (measure t ≤ n)) := by
  apply partitionPoint_spec
  refine h.imp fun hab hb => ?_
  rw [decide_eq_true_eq] at hb ⊢
  exact hab.trans hb

/-- A look-up by a measure that is in order gives the first token with the asked measure. -/
theorem findBy?_eq_some_iff
    (h : s.tokens.toList.Pairwise fun a b => measure a ≤ measure b) :
    s.findBy? measure n = some i ↔
      (∃ t, s.get? i = some t ∧ measure t = n) ∧
        ∀ j u, j < i → s.get? j = some u → measure u ≠ n := by
  obtain ⟨hle, hspec⟩ := partitionPoint_lt_spec h n
  simp only [decide_eq_true_eq] at hspec
  rw [findBy?]
  generalize (partitionPoint s.tokens fun t => decide (measure t < n)) = k at hle hspec ⊢
  constructor
  · intro hsome
    cases hk : s.get? k with
    | none => simp [hk] at hsome
    | some t =>
        simp only [hk, Option.any_some, beq_iff_eq, Option.ite_none_right_eq_some,
          Option.some.injEq] at hsome
        obtain ⟨heq, rfl⟩ := hsome
        refine ⟨⟨t, hk, heq⟩, fun j u hj hu => ?_⟩
        have := (hspec j u hu).2 hj
        omega
  · rintro ⟨⟨t, ht, heq⟩, hfirst⟩
    have hik : ¬ i < k := fun hi => by
      have := (hspec i t ht).2 hi
      omega
    -- a token at the boundary below `i` would have the asked measure already
    have hki : ¬ k < i := fun hki => by
      have hsize := lt_size_of_get? ht
      obtain ⟨u, hu⟩ := exists_get?_of_lt_size (s := s) (i := k) (by omega)
      have hu' : ¬ measure u < n := fun hlt => by
        have := (hspec k u hu).1 hlt
        omega
      have := get?_rel_of_pairwise h hu ht hki
      exact hfirst k u hki hu (by omega)
    obtain rfl : k = i := by omega
    simp [ht, heq]

theorem findBy?_eq_none_iff
    (h : s.tokens.toList.Pairwise fun a b => measure a ≤ measure b) :
    s.findBy? measure n = none ↔ ∀ i t, s.get? i = some t → measure t ≠ n := by
  constructor
  · intro hnone i
    -- the first token with the asked measure would have been found
    induction i using Nat.strong_induction_on with
    | h i ih =>
        intro t ht heq
        have := (findBy?_eq_some_iff h).2 ⟨⟨t, ht, heq⟩, fun j u hj => ih j hj u⟩
        rw [hnone] at this
        cases this
  · intro hall
    cases hf : s.findBy? measure n with
    | none => rfl
    | some i =>
        obtain ⟨⟨t, ht, heq⟩, -⟩ := (findBy?_eq_some_iff h).1 hf
        exact absurd heq (hall i t ht)

end Measure

section Offsets

variable {s : TokenStream} {n i b p : Nat} {t u : Token}

theorem InOrder.endingAt?_eq_some_iff (h : s.InOrder) :
    s.endingAt? n = some i ↔ ∃ t, s.get? i = some t ∧ t.span.stop = n := by
  rw [endingAt?_eq_findBy?, findBy?_eq_some_iff h.sorted.stops]
  refine ⟨And.left, fun hi => ⟨hi, fun j u hj hu heq => ?_⟩⟩
  obtain ⟨t, ht, rfl⟩ := hi
  have := h.index_eq_of_stop_eq hu ht heq
  omega

theorem InOrder.startingAt?_eq_some_iff (h : s.InOrder) :
    s.startingAt? n = some i ↔ ∃ t, s.get? i = some t ∧ t.span.start = n := by
  rw [startingAt?_eq_findBy?, findBy?_eq_some_iff h.sorted.starts]
  refine ⟨And.left, fun hi => ⟨hi, fun j u hj hu heq => ?_⟩⟩
  obtain ⟨t, ht, rfl⟩ := hi
  have := h.index_eq_of_start_eq hu ht heq
  omega

theorem InOrder.endingAt?_eq_none_iff (h : s.InOrder) :
    s.endingAt? n = none ↔ ∀ i t, s.get? i = some t → t.span.stop ≠ n :=
  findBy?_eq_none_iff h.sorted.stops

theorem InOrder.startingAt?_eq_none_iff (h : s.InOrder) :
    s.startingAt? n = none ↔ ∀ i t, s.get? i = some t → t.span.start ≠ n :=
  findBy?_eq_none_iff h.sorted.starts

/-- The tokens that start before the stop of token `b` are those up to `b`. -/
theorem InOrder.partitionPoint_start_lt_stop (h : s.InOrder) (hb : s.get? b = some t) :
    (partitionPoint s.tokens fun u => decide (u.span.start < t.span.stop)) = b + 1 := by
  refine partitionPoint_eq (lt_size_of_get? hb) fun i u hu => ?_
  rw [decide_eq_true_eq, Nat.lt_succ_iff]
  constructor
  · intro hlt
    by_contra hle
    have := h.stop_le_start hb hu (by omega)
    omega
  · intro hle
    have hord := h.start_lt_start_iff hb hu
    have ht := h.start_lt_stop hb
    omega

/-- The tokens that stop before the start of token `p` are those below `p`. -/
theorem InOrder.partitionPoint_stop_le_start (h : s.InOrder) (hp : s.get? p = some u) :
    (partitionPoint s.tokens fun v => decide (v.span.stop ≤ u.span.start)) = p := by
  refine partitionPoint_eq (lt_size_of_get? hp).le fun i v hv => ?_
  rw [decide_eq_true_eq]
  constructor
  · intro hle
    have := h.start_lt_stop hv
    exact (h.start_lt_start_iff hv hp).1 (by omega)
  · exact h.stop_le_start hv hp

/-- The first token after the stop of token `b` is token `b + 1`. -/
theorem InOrder.after?_stop (h : s.InOrder) (hb : s.get? b = some t) :
    s.after? t.span.stop = if b + 1 < s.size then some (b + 1) else none := by
  rw [after?, h.partitionPoint_start_lt_stop hb]

/-- The first token that is not a comment after the stop of token `b` comes after token `b`. -/
theorem InOrder.codeAfter?_stop (h : s.InOrder) (hb : s.get? b = some t) :
    s.codeAfter? t.span.stop = s.codeFrom? (b + 1) := by
  rw [codeAfter?, h.after?_stop hb]
  split
  · rfl
  · rename_i hle
    rw [Option.bind_none, codeFrom?, dif_neg (by simpa [size] using hle)]

/-- The search for code passes over comments only. -/
theorem codeFrom?_eq_some_iff :
    s.codeFrom? b = some i ↔
      b ≤ i ∧ (∃ t, s.get? i = some t ∧ t.isComment = false) ∧
        ∀ j u, b ≤ j → j < i → s.get? j = some u → u.isComment = true := by
  fun_induction codeFrom? s b with
  | case1 b hb hcomment ih =>
      rw [ih]
      have hget : s.get? b = some s.tokens[b] := Array.getElem?_eq_getElem hb
      constructor
      · rintro ⟨hle, hcode, hbetween⟩
        refine ⟨by omega, hcode, fun j u hj hji hu => ?_⟩
        rcases Nat.lt_or_eq_of_le hj with hj | rfl
        · exact hbetween j u hj hji hu
        · rw [hget] at hu
          cases hu
          exact hcomment
      · rintro ⟨hle, ⟨t, ht, hcode⟩, hbetween⟩
        -- the comment at `b` is not the code that is looked for
        have hne : b ≠ i := by
          rintro rfl
          rw [hget] at ht
          cases ht
          simp [hcomment] at hcode
        exact ⟨by omega, ⟨t, ht, hcode⟩, fun j u hj => hbetween j u (by omega)⟩
  | case2 b hb hcode =>
      have hget : s.get? b = some s.tokens[b] := Array.getElem?_eq_getElem hb
      constructor
      · intro hi
        cases hi
        exact ⟨le_rfl, ⟨_, hget, by simpa using hcode⟩, by omega⟩
      · rintro ⟨hle, -, hbetween⟩
        rcases Nat.lt_or_eq_of_le hle with hlt | rfl
        · exact absurd (hbetween b _ (le_refl b) hlt hget) hcode
        · rfl
  | case3 b hb =>
      simp only [reduceCtorEq, false_iff]
      rintro ⟨hle, ⟨t, ht, -⟩, -⟩
      have := lt_size_of_get? ht
      rw [size] at this
      omega

/-- The search for code fails only if there is none ahead. -/
theorem codeFrom?_eq_none_iff :
    s.codeFrom? b = none ↔ ∀ i t, b ≤ i → s.get? i = some t → t.isComment = true := by
  fun_induction codeFrom? s b with
  | case1 b hb hcomment ih =>
      have hget : s.get? b = some s.tokens[b] := Array.getElem?_eq_getElem hb
      rw [ih]
      refine ⟨fun hall i t hi ht => ?_, fun hall i t hi => hall i t (by omega)⟩
      rcases Nat.lt_or_eq_of_le hi with hi | rfl
      · exact hall i t hi ht
      · rw [hget] at ht
        exact Option.some.inj ht ▸ hcomment
  | case2 b hb hcode =>
      simp only [reduceCtorEq, false_iff]
      exact fun hall => hcode (hall b _ le_rfl (Array.getElem?_eq_getElem hb))
  | case3 b hb =>
      refine iff_of_true rfl fun i t hi ht => ?_
      exact absurd (hi.trans_lt (lt_size_of_get? ht)) hb

/-- If the token after token `b` is code, it is the first code after token `b`. -/
theorem InOrder.codeAfter?_stop_of_next (h : s.InOrder) (hb : s.get? b = some t)
    (hu : s.get? (b + 1) = some u) (hcode : u.isComment = false) :
    s.codeAfter? t.span.stop = some (b + 1) := by
  rw [h.codeAfter?_stop hb]
  exact codeFrom?_eq_some_iff.2 ⟨le_rfl, ⟨u, hu, hcode⟩, by omega⟩

/-- The tokens between token `b` and token `p` are those with an index in between. -/
theorem InOrder.between_stop_start (h : s.InOrder) (hb : s.get? b = some t)
    (hp : s.get? p = some u) :
    s.between ⟨t.span.stop, u.span.start⟩ = (s.tokens.extract (b + 1) p).toList := by
  simp only [between, h.partitionPoint_start_lt_stop hb, h.partitionPoint_stop_le_start hp]

end Offsets

end TokenStream

end ParenGap
