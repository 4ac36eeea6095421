import Mathlib.Order.Bounds.Basic
import Mathlib.Tactic
import ParenGap.Proofs.Token.Lookup

/-!
# Look-ups as scans

A look-up by halving answers as a scan of all tokens does, also where tokens are empty, touch or
share an offset, as long as both the starts and the stops are in order: with the first or the last
index of a token that passes a test, or with none if no token does. The tokens within a span are
those that a filter keeps, also if the span is inverted.

The main statement is `TokenStream.Sorted.scans`.
-/

set_option autoImplicit false

namespace ParenGap

/-! ## Scans -/

/-- What a scan for the least number of a set answers: that number, or nothing if the set is
empty. -/
inductive FindsLeast (S : Set Nat) : Option Nat → Prop
  | found {i : Nat} (h : IsLeast S i) : FindsLeast S (some i)
  | missing (h : S = ∅) : FindsLeast S none

/-- What a scan for the greatest number of a set answers: that number, or nothing if the set is
empty. -/
inductive FindsGreatest (S : Set Nat) : Option Nat → Prop
  | found {i : Nat} (h : IsGreatest S i) : FindsGreatest S (some i)
  | missing (h : S = ∅) : FindsGreatest S none

namespace Search

variable {α : Type} {xs : List α} {p q : α → Bool} {k m n : Nat} {x : α}

/-- Of a test that holds exactly below the index `k`: the elements below `k` pass it. -/
theorem of_mem_take (h : ∀ i x, xs[i]? = some x → (p x = true ↔ i < k)) (hx : x ∈ xs.take k) :
    p x = true := by
  obtain ⟨i, hi⟩ := List.mem_iff_getElem?.1 hx
  rw [List.getElem?_take] at hi
  split at hi
  · rename_i hik
    exact (h i x hi).2 hik
  · cases hi

/-- Of a test that holds exactly below the index `k`: the other elements fail it. -/
theorem of_mem_drop (h : ∀ i x, xs[i]? = some x → (p x = true ↔ i < k)) (hx : x ∈ xs.drop k) :
    ¬ p x = true := by
  obtain ⟨i, hi⟩ := List.mem_iff_getElem?.1 hx
  rw [List.getElem?_drop] at hi
  rw [h _ x hi]
  omega

theorem filter_eq_take (h : ∀ i x, xs[i]? = some x → (p x = true ↔ i < k)) :
    xs.filter p = xs.take k := by
  conv_lhs => rw [← List.take_append_drop k xs, List.filter_append]
  rw [List.filter_eq_self.2 fun x hx => of_mem_take h hx,
    List.filter_eq_nil_iff.2 fun x hx => of_mem_drop h hx, List.append_nil]

theorem filter_not_eq_drop (h : ∀ i x, xs[i]? = some x → (p x = true ↔ i < k)) :
    (xs.filter fun x => !p x) = xs.drop k := by
  conv_lhs => rw [← List.take_append_drop k xs, List.filter_append]
  rw [List.filter_eq_nil_iff.2 fun x hx => by simp [of_mem_take h hx],
    List.filter_eq_self.2 fun x hx => by simp [of_mem_drop h hx], List.nil_append]

/-- The elements that fail a test that holds exactly below `m`, and pass one that holds exactly
below `n`, are those in between. -/
theorem filter_eq_extract {xs : Array α}
    (hp : ∀ i x, xs[i]? = some x → (p x = true ↔ i < m))
    (hq : ∀ i x, xs[i]? = some x → (q x = true ↔ i < n)) :
    (xs.toList.filter fun x => !p x && q x) = (xs.extract m n).toList := by
  simp only [← Array.getElem?_toList] at hp hq
  have htake : ∀ i x, (xs.toList.take n)[i]? = some x → (p x = true ↔ i < m) := by
    intro i x hx
    rw [List.getElem?_take] at hx
    split at hx
    · exact hp i x hx
    · cases hx
  rw [← List.filter_filter, filter_eq_take hq, filter_not_eq_drop htake, Array.toList_extract,
    List.extract_eq_take_drop, List.drop_take]

end Search

namespace TokenStream

open Search

/-- The indexes of the tokens that pass a test. -/
def indexes (s : TokenStream) (test : Token → Prop) : Set Nat :=
  {i | ∃ t, s.get? i = some t ∧ test t}

/-- The look-ups of a stream answer as scans of its tokens do: for the first token that stops at an
offset, or starts there, for the last one that stops at or before it, for the first one, or the
first code, that starts at or after it, and for the tokens that start and stop within a span. -/
structure Scans (s : TokenStream) : Prop where
  endingAt : ∀ n, FindsLeast (s.indexes fun t => t.span.stop = n) (s.endingAt? n)
  startingAt : ∀ n, FindsLeast (s.indexes fun t => t.span.start = n) (s.startingAt? n)
  before : ∀ n, FindsGreatest (s.indexes fun t => t.span.stop ≤ n) (s.before? n)
  after : ∀ n, FindsLeast (s.indexes fun t => n ≤ t.span.start) (s.after? n)
  codeAfter : ∀ n, FindsLeast (s.indexes fun t => n ≤ t.span.start ∧ t.isComment = false)
    (s.codeAfter? n)
  between : ∀ span : Span, s.between span =
    s.tokens.toList.filter fun t =>
      decide (span.start ≤ t.span.start) && decide (t.span.stop ≤ span.stop)

section Scans

variable {s : TokenStream} {measure : Token → Nat} {test : Token → Prop} {b i n : Nat}

theorem indexes_eq_empty_iff :
    s.indexes test = ∅ ↔ ∀ i t, s.get? i = some t → ¬ test t := by
  rw [Set.eq_empty_iff_forall_notMem]
  exact forall_congr' fun i => by simp [indexes]

theorem isLeast_indexes_iff : IsLeast (s.indexes test) i ↔
    (∃ t, s.get? i = some t ∧ test t) ∧ ∀ j u, j < i → s.get? j = some u → ¬ test u := by
  refine and_congr_right fun _ => ⟨fun hlow j u hj hu htest => ?_, ?_⟩
  · exact (hlow ⟨u, hu, htest⟩).not_gt hj
  · rintro hnone j ⟨u, hu, htest⟩
    by_contra hj
    exact hnone j u (not_le.1 hj) hu htest

/-- A look-up by a measure that is in order. -/
theorem findsLeast_findBy? (h : s.tokens.toList.Pairwise fun a b => measure a ≤ measure b) :
    FindsLeast (s.indexes fun t => measure t = n) (s.findBy? measure n) := by
  cases hfind : s.findBy? measure n with
  | none => exact .missing (indexes_eq_empty_iff.2 ((findBy?_eq_none_iff h).1 hfind))
  | some i => exact .found (isLeast_indexes_iff.2 ((findBy?_eq_some_iff h).1 hfind))

theorem Sorted.findsGreatest_before? (h : s.Sorted) (n : Nat) :
    FindsGreatest (s.indexes fun t => t.span.stop ≤ n) (s.before? n) := by
  obtain ⟨hle, hspec⟩ := partitionPoint_le_spec h.stops n
  simp only [decide_eq_true_eq] at hspec
  rw [before?]
  split
  · rename_i hzero
    rw [hzero] at hspec
    refine .missing (indexes_eq_empty_iff.2 fun i t ht htest => ?_)
    exact Nat.not_lt_zero i ((hspec i t ht).1 htest)
  · rename_i i hsucc
    rw [hsucc] at hle hspec
    obtain ⟨t, ht⟩ := exists_get?_of_lt_size hle
    refine .found ⟨⟨t, ht, (hspec i t ht).2 (Nat.lt_succ_self i)⟩, ?_⟩
    rintro j ⟨u, hu, htest⟩
    exact Nat.le_of_lt_succ ((hspec j u hu).1 htest)

/-- The tokens that start at or after an offset are those from an index on: the one that is looked
up, or the end of the stream. -/
theorem Sorted.after?_spec (h : s.Sorted) (n : Nat) :
    ∃ k, s.after? n = (if k < s.size then some k else none) ∧
      ∀ i t, s.get? i = some t → (n ≤ t.span.start ↔ k ≤ i) := by
  obtain ⟨-, hspec⟩ := partitionPoint_lt_spec h.starts n
  refine ⟨_, rfl, fun i t ht => ?_⟩
  rw [← not_lt, ← not_lt, ← hspec i t ht, decide_eq_true_eq]

theorem Sorted.findsLeast_after? (h : s.Sorted) (n : Nat) :
    FindsLeast (s.indexes fun t => n ≤ t.span.start) (s.after? n) := by
  obtain ⟨k, hk, hspec⟩ := h.after?_spec n
  rw [hk]
  split
  · rename_i hlt
    obtain ⟨t, ht⟩ := exists_get?_of_lt_size hlt
    refine .found ⟨⟨t, ht, (hspec k t ht).2 le_rfl⟩, ?_⟩
    rintro j ⟨u, hu, htest⟩
    exact (hspec j u hu).1 htest
  · rename_i hge
    refine .missing (indexes_eq_empty_iff.2 fun i t ht htest => ?_)
    exact hge (((hspec i t ht).1 htest).trans_lt (lt_size_of_get? ht))

theorem Sorted.findsLeast_codeAfter? (h : s.Sorted) (n : Nat) :
    FindsLeast (s.indexes fun t => n ≤ t.span.start ∧ t.isComment = false) (s.codeAfter? n) := by
  obtain ⟨k, hk, hspec⟩ := h.after?_spec n
  have hcode : s.codeAfter? n = s.codeFrom? k := by
    rw [codeAfter?, hk]
    split
    · rfl
    · rename_i hge
      refine (codeFrom?_eq_none_iff.2 fun i t hi ht => ?_).symm
      exact absurd (hi.trans_lt (lt_size_of_get? ht)) hge
  rw [hcode]
  cases hfind : s.codeFrom? k with
  | none =>
      refine .missing (indexes_eq_empty_iff.2 ?_)
      rintro i t ht ⟨hstart, hfalse⟩
      rw [codeFrom?_eq_none_iff.1 hfind i t ((hspec i t ht).1 hstart) ht] at hfalse
      cases hfalse
  | some i =>
      obtain ⟨hki, ⟨t, ht, htrue⟩, hcomments⟩ := codeFrom?_eq_some_iff.1 hfind
      refine .found (isLeast_indexes_iff.2 ⟨⟨t, ht, (hspec i t ht).2 hki, htrue⟩, ?_⟩)
      rintro j u hj hu ⟨hstart, hfalse⟩
      rw [hcomments j u ((hspec j u hu).1 hstart) hj hu] at hfalse
      cases hfalse

theorem Sorted.between_eq_filter (h : s.Sorted) (span : Span) :
    s.between span = s.tokens.toList.filter fun t =>
      decide (span.start ≤ t.span.start) && decide (t.span.stop ≤ span.stop) := by
  rw [TokenStream.between, ← filter_eq_extract (partitionPoint_lt_spec h.starts span.start).2
    (partitionPoint_le_spec h.stops span.stop).2]
  apply List.filter_congr
  intro t _
  rw [← decide_not, decide_eq_decide.2 not_lt]

/-- If the starts and the stops of the tokens are in order, all look-ups by halving answer as scans
of the tokens do. -/
theorem Sorted.scans (h : s.Sorted) : s.Scans where
  endingAt _ := findsLeast_findBy? h.stops
  startingAt _ := findsLeast_findBy? h.starts
  before := h.findsGreatest_before?
  after := h.findsLeast_after?
  codeAfter := h.findsLeast_codeAfter?
  between := h.between_eq_filter

end Scans

end TokenStream

/-! ## Empty tokens -/

open TokenStream

/-- A name, a comment and two parentheses, with an empty literal behind the name and one behind the
opening parenthesis. -/
def touchingStream : TokenStream := .ofList [
  ⟨.identifier, ⟨0, 1⟩, ['f']⟩, ⟨.literal, ⟨1, 1⟩, []⟩, ⟨.comment, ⟨2, 6⟩, ['/', '*', '*', '/']⟩,
  ⟨.punctuator, ⟨6, 7⟩, ['(']⟩, ⟨.literal, ⟨7, 7⟩, []⟩, ⟨.punctuator, ⟨7, 8⟩, [')']⟩]

/-- Of two tokens that stop at an offset the first is found, or the second as the last one; a
comment is passed over; and nothing lies within an inverted span. -/
theorem TokenStream.Sorted.scans_touchingStream :
    touchingStream.Sorted ∧
      FindsLeast (touchingStream.indexes fun t => t.span.stop = 1) (some 0) ∧
      FindsLeast (touchingStream.indexes fun t => t.span.start = 7) (some 4) ∧
      FindsGreatest (touchingStream.indexes fun t => t.span.stop ≤ 1) (some 1) ∧
      FindsLeast (touchingStream.indexes fun t => 2 ≤ t.span.start) (some 2) ∧
      FindsLeast (touchingStream.indexes fun t => 2 ≤ t.span.start ∧ t.isComment = false)
        (some 3) ∧
      (touchingStream.between ⟨1, 6⟩).length = 2 ∧ touchingStream.between ⟨6, 1⟩ = [] := by
  have hsorted : touchingStream.Sorted := ⟨by decide, by decide⟩
  have h := hsorted.scans
  have hending : touchingStream.endingAt? 1 = some 0 := by cbv
  have hstarting : touchingStream.startingAt? 7 = some 4 := by cbv
  have hbefore : touchingStream.before? 1 = some 1 := by cbv
  have hafter : touchingStream.after? 2 = some 2 := by cbv
  have hcode : touchingStream.codeAfter? 2 = some 3 := by cbv
  refine ⟨hsorted, hending ▸ h.endingAt 1, hstarting ▸ h.startingAt 7, hbefore ▸ h.before 1,
    hafter ▸ h.after 2, hcode ▸ h.codeAfter 2, ?_, ?_⟩
  · rw [h.between]
    decide
  · rw [h.between]
    decide

end ParenGap
