import Mathlib.Data.List.Forall2
import Mathlib.Tactic
import ParenGap.Proofs.Edit.Respacing
import ParenGap.Proofs.Token.Alignment

/-!
# Tokens and spaces under a patch

A patch that respaces a text moves its tokens and replaces some of the spaces between them, and that
is all that it does to the text.
-/

set_option autoImplicit false

namespace ParenGap

/-! ## Streams moved by a patch

A patch that respaces a text moves its tokens. The moved tokens lie in the result
(`Respacing.liesIn_moved`), and they are alike to the tokens of the text. An offset inside of a
token is aligned with its moved offset (`Respacing.alignedStart_moved`,
`Respacing.alignedStop_moved`).
-/

open Text

/-- A token where it stands after a patch. -/
def Token.moved (p : Patch) (t : Token) : Token := { t with span := p.movedSpan t.span }

/-- A stream where its tokens stand after a patch. -/
def TokenStream.moved (p : Patch) (s : TokenStream) : TokenStream :=
  TokenStream.ofList (s.tokens.toList.map (Token.moved p))

theorem TokenStream.get?_moved (p : Patch) (s : TokenStream) (i : Nat) :
    (s.moved p).get? i = (s.get? i).map (Token.moved p) := by
  simp [moved, ofList, get?]

namespace Patch.Respacing

variable {p : Patch} {s : TokenStream} {code out : List Char} {i n : Nat} {t : Token}

/-- A moved token covers some bytes. -/
theorem movedStart_lt_movedStop (h : p.Respacing s code) (hs : s.LiesIn code)
    (hout : p.applied? code = some out) (ht : s.get? i = some t) :
    p.movedStart t.span.start < p.movedStop t.span.stop := by
  obtain ⟨-, hstart, hstop⟩ := h.slice?_token hs hout ht
  have hlt := hs.start_lt_stop ht
  omega

/-- The moved tokens lie in the result. -/
theorem liesIn_moved (h : p.Respacing s code) (hs : s.LiesIn code)
    (hout : p.applied? code = some out) : (s.moved p).LiesIn out := by
  have hmem : ∀ t ∈ (s.moved p).tokens.toList, ∃ i u, s.get? i = some u ∧ t = u.moved p := by
    intro t ht
    simp only [TokenStream.moved, TokenStream.ofList, List.mem_map] at ht
    obtain ⟨u, hu, rfl⟩ := ht
    obtain ⟨i, hi⟩ := TokenStream.exists_get?_of_mem hu
    exact ⟨i, u, hi, rfl⟩
  constructor
  · constructor
    · intro t ht
      obtain ⟨i, u, hu, rfl⟩ := hmem t ht
      exact h.movedStart_lt_movedStop hs hout hu
    · -- the order is that of the tokens of the text, index by index
      simp only [TokenStream.moved, TokenStream.ofList, List.pairwise_map]
      apply List.pairwise_iff_getElem.2
      intro i j hi hj hij
      have hget : ∀ k (hk : k < s.tokens.toList.length), s.get? k = some s.tokens.toList[k] := by
        intro k hk
        rw [TokenStream.get?, ← Array.getElem?_toList, List.getElem?_eq_getElem hk]
      exact h.movedStop_le_movedStart hs hout (hget i hi) (hget j hj) hij
  · intro t ht
    obtain ⟨i, u, hu, rfl⟩ := hmem t ht
    exact (h.slice?_token hs hout hu).1

/-- The moved tokens are alike to the tokens of the text. -/
theorem alike_moved (h : p.Respacing s code) (hs : s.LiesIn code)
    (hout : p.applied? code = some out) : s.Alike (s.moved p) := by
  have hall : ∀ t ∈ s.tokens.toList, t.Alike (t.moved p) := by
    intro t ht
    obtain ⟨i, hi⟩ := TokenStream.exists_get?_of_mem ht
    obtain ⟨-, hstart, hstop⟩ := h.slice?_token hs hout hi
    refine ⟨rfl, rfl, ?_⟩
    simp only [Token.moved, movedSpan, Span.length]
    omega
  rw [TokenStream.Alike, TokenStream.moved, TokenStream.ofList]
  simp only [List.forall₂_map_right_iff]
  exact List.forall₂_same.2 hall

/-- An offset before the stop of a token moves with the token as a start. -/
theorem alignedStart_moved (h : p.Respacing s code) (hs : s.LiesIn code)
    (hout : p.applied? code = some out) (ht : s.get? i = some t) (hstart : t.span.start ≤ n)
    (hstop : n < t.span.stop) : s.AlignedStart (s.moved p) n (p.movedStart n) := by
  obtain ⟨-, hmoved, -⟩ := h.slice?_token hs hout ht
  -- the edits that stop by the offset are those that stop by the start of the token
  have hsame : p.stoppingBy n = p.stoppingBy t.span.start := by
    refine List.filter_congr fun e he => ?_
    have hle := h.inOrder.start_le_stop e he
    have hfree := h.untouched hs.toInOrder ht he
    rw [decide_eq_decide]
    omega
  refine ⟨i, t, t.moved p, n - t.span.start, ht, ?_, by omega, ?_, hstop⟩
  · rw [TokenStream.get?_moved, ht]
    rfl
  · show p.movedStart n = p.movedStart t.span.start + (n - t.span.start)
    rw [movedStart, hsame]
    omega

/-- An offset after the start of a token moves with the token as a stop. -/
theorem alignedStop_moved (h : p.Respacing s code) (hs : s.LiesIn code)
    (hout : p.applied? code = some out) (ht : s.get? i = some t) (hstart : t.span.start < n)
    (hstop : n ≤ t.span.stop) : s.AlignedStop (s.moved p) n (p.movedStop n) := by
  obtain ⟨-, hmoved, -⟩ := h.slice?_token hs hout ht
  have hsame : p.startingBefore n = p.stoppingBy t.span.start := by
    refine List.filter_congr fun e he => ?_
    have hle := h.inOrder.start_le_stop e he
    have hfree := h.untouched hs.toInOrder ht he
    rw [decide_eq_decide]
    omega
  refine ⟨i, t, t.moved p, n - t.span.start, ht, ?_, by omega, ?_, by omega, hstop⟩
  · rw [TokenStream.get?_moved, ht]
    rfl
  · show p.movedStop n = p.movedStart t.span.start + (n - t.span.start)
    rw [movedStop, hsame]
    omega

end Patch.Respacing

/-! ## The spaces of a text

The tokens of a text leave spaces: one before every token, and one behind the last. Space `i` stands
before token `i`, so that the gap between token `b` and the token after it is space `b + 1`. A text
is its tokens and its spaces: two texts with alike tokens and the same spaces are equal, and their
tokens stand in the same places (`LiesIn.eq_of_spaces`).

A patch that respaces a text puts its replacements into some spaces and leaves the others as they
are (`Respacing.space?_moved`).
-/

namespace TokenStream

/-- Where space `i` starts: at the stop of the token before it, or at the start of the text. -/
def spaceStart (s : TokenStream) : Nat → Nat
  | 0 => 0
  | i + 1 => ((s.get? i).map fun t => t.span.stop).getD 0

/-- Where space `i` stops: at the start of token `i`, or at the end of the text. -/
def spaceStop (s : TokenStream) (code : List Char) (i : Nat) : Nat :=
  ((s.get? i).map fun t => t.span.start).getD (byteLength code)

/-- The bytes of space `i`. -/
def spaceSpan (s : TokenStream) (code : List Char) (i : Nat) : Span :=
  ⟨s.spaceStart i, s.spaceStop code i⟩

/-- The characters of space `i`, if there is such a space. -/
def space? (s : TokenStream) (code : List Char) (i : Nat) : Option (List Char) :=
  if i ≤ s.size then slice? code (s.spaceStart i) (s.spaceStop code i) else none

variable {s s' : TokenStream} {code code' text : List Char} {b i : Nat} {t u : Token}

theorem get?_size (s : TokenStream) : s.get? s.size = none := by
  rw [get?, size, Array.getElem?_eq_none_iff]

theorem spaceStart_succ (ht : s.get? b = some t) : s.spaceStart (b + 1) = t.span.stop := by
  rw [spaceStart, ht]
  rfl

theorem spaceStop_of_get? (code : List Char) (ht : s.get? i = some t) :
    s.spaceStop code i = t.span.start := by
  rw [spaceStop, ht]
  rfl

theorem spaceStop_size (s : TokenStream) (code : List Char) :
    s.spaceStop code s.size = byteLength code := by
  rw [spaceStop, get?_size]
  rfl

theorem space?_eq_slice? (hi : i ≤ s.size) :
    s.space? code i = slice? code (s.spaceStart i) (s.spaceStop code i) := if_pos hi

theorem le_size_of_space? (h : s.space? code i = some text) : i ≤ s.size := by
  by_contra hi
  rw [space?, if_neg hi] at h
  cases h

theorem spaceSpan_succ (code : List Char) (ht : s.get? b = some t) (hu : s.get? (b + 1) = some u) :
    s.spaceSpan code (b + 1) = ⟨t.span.stop, u.span.start⟩ := by
  rw [spaceSpan, spaceStart_succ ht, spaceStop_of_get? code hu]

/-- A gap between neighbours is the space before the second one. -/
theorem space?_succ (code : List Char) (ht : s.get? b = some t) (hu : s.get? (b + 1) = some u) :
    s.space? code (b + 1) = slice? code t.span.stop u.span.start := by
  rw [space?_eq_slice? (lt_size_of_get? hu).le, spaceStart_succ ht, spaceStop_of_get? code hu]

/-- Every space of a text has its characters. -/
theorem LiesIn.exists_space? (h : s.LiesIn code) (hi : i ≤ s.size) :
    ∃ text, s.space? code i = some text := by
  have hplaces : ∀ {j : Nat} {t : Token}, s.get? j = some t →
      IsPlace code t.span.start ∧ IsPlace code t.span.stop :=
    fun ht => isPlace_of_slice? (h.texts _ (mem_of_get? ht))
  -- the space starts at a place
  have hstart : IsPlace code (s.spaceStart i) := by
    cases i with
    | zero => exact .zero code
    | succ b =>
        obtain ⟨t, ht⟩ := exists_get?_of_lt_size (Nat.lt_of_succ_le hi)
        rw [spaceStart_succ ht]
        exact (hplaces ht).2
  rw [space?_eq_slice? hi]
  rcases Nat.lt_or_eq_of_le hi with hlt | rfl
  · obtain ⟨u, hu⟩ := exists_get?_of_lt_size hlt
    rw [spaceStop_of_get? code hu]
    refine hstart.exists_slice? (hplaces hu).1 ?_
    cases i with
    | zero => exact Nat.zero_le _
    | succ b =>
        obtain ⟨t, ht⟩ := exists_get?_of_lt_size (Nat.lt_of_succ_lt hlt)
        rw [spaceStart_succ ht]
        exact h.stop_le_start ht hu (Nat.lt_succ_self b)
  · rw [spaceStop_size]
    exact hstart.exists_slice? (.last code) hstart.le_byteLength

/-- Spaces with different indexes stop at different offsets. -/
theorem LiesIn.eq_of_spaceStop_eq (h : s.LiesIn code) (hi : i ≤ s.size) (hu : s.get? b = some u)
    (hstop : s.spaceStop code i = u.span.start) : i = b := by
  rcases Nat.lt_or_eq_of_le hi with hlt | rfl
  · obtain ⟨t, ht⟩ := exists_get?_of_lt_size hlt
    rw [spaceStop_of_get? code ht] at hstop
    exact h.index_eq_of_start_eq ht hu hstop
  · -- the last space stops behind every token
    rw [spaceStop_size] at hstop
    have hle := (isPlace_of_slice? (h.texts u (mem_of_get? hu))).2.le_byteLength
    have hlt := h.start_lt_stop hu
    omega

/-! ### A text is its tokens and its spaces -/

/-- Streams with the same tokens are equal, for the tokens determine the partners. -/
theorem eq_of_tokens_eq (h : s.tokens = s'.tokens) : s = s' := by
  obtain ⟨tokens, partners, hpartners⟩ := s
  obtain ⟨tokens', partners', hpartners'⟩ := s'
  obtain rfl : tokens = tokens' := h
  obtain rfl : partners = partners' := hpartners.trans hpartners'.symm
  rfl

@[simp] theorem ofList_toList (s : TokenStream) : ofList s.tokens.toList = s := eq_of_tokens_eq rfl

theorem eq_of_get?_eq (h : ∀ i, s.get? i = s'.get? i) : s = s' :=
  eq_of_tokens_eq (Array.ext_getElem? h)

/-- Texts with alike tokens and the same spaces agree up to the start of every token. -/
theorem LiesIn.exists_before_of_spaces (hs : s.LiesIn code) (hs' : s'.LiesIn code')
    (h : s.Alike s')
    (hspace : ∀ i text, s.space? code i = some text → s'.space? code' i = some text)
    (hi : i ≤ s.size) :
    ∃ before, slice? code 0 (s.spaceStop code i) = some before ∧
      slice? code' 0 (s'.spaceStop code' i) = some before := by
  have hi' : i ≤ s'.size := h.size_eq ▸ hi
  obtain ⟨text, htext⟩ := hs.exists_space? hi
  have htext' := hspace i text htext
  rw [space?_eq_slice? hi] at htext
  rw [space?_eq_slice? hi'] at htext'
  induction i generalizing text with
  | zero => exact ⟨text, htext, htext'⟩
  | succ b ih =>
      -- what stands before the token, the token itself, and the space behind it
      obtain ⟨t, ht⟩ := exists_get?_of_lt_size (Nat.lt_of_succ_le hi)
      obtain ⟨t', ht', htt'⟩ := h.exists_get? ht
      obtain ⟨space, hbefore⟩ := hs.exists_space? (Nat.le_of_succ_le hi)
      have hbefore' := hspace b space hbefore
      rw [space?_eq_slice? (Nat.le_of_succ_le hi)] at hbefore
      rw [space?_eq_slice? (Nat.le_of_succ_le hi')] at hbefore'
      obtain ⟨before, hslice, hslice'⟩ :=
        ih (Nat.le_of_succ_le hi) (Nat.le_of_succ_le hi') space hbefore hbefore'
      rw [spaceStop_of_get? code ht] at hslice
      rw [spaceStop_of_get? code' ht'] at hslice'
      rw [spaceStart_succ ht] at htext
      rw [spaceStart_succ ht'] at htext'
      have htoken := hs.texts t (mem_of_get? ht)
      have htoken' := hs'.texts t' (mem_of_get? ht')
      rw [← htt'.text_eq] at htoken'
      exact ⟨before ++ t.text ++ text, slice?_append (slice?_append hslice htoken) htext,
        slice?_append (slice?_append hslice' htoken') htext'⟩

/-- Texts with alike tokens and the same spaces are equal, and so are their streams. -/
theorem LiesIn.eq_of_spaces (hs : s.LiesIn code) (hs' : s'.LiesIn code') (h : s.Alike s')
    (hspace : ∀ i text, s.space? code i = some text → s'.space? code' i = some text) :
    code = code' ∧ s = s' := by
  have hstop : ∀ i, i ≤ s.size → s.spaceStop code i = s'.spaceStop code' i := by
    intro i hi
    obtain ⟨before, hslice, hslice'⟩ := hs.exists_before_of_spaces hs' h hspace hi
    have hlen := add_byteLength_of_slice? hslice
    have hlen' := add_byteLength_of_slice? hslice'
    omega
  constructor
  · obtain ⟨before, hslice, hslice'⟩ := hs.exists_before_of_spaces hs' h hspace le_rfl
    rw [spaceStop_size, slice?_zero_byteLength, Option.some.injEq] at hslice
    rw [h.size_eq, spaceStop_size, slice?_zero_byteLength, Option.some.injEq] at hslice'
    exact hslice.trans hslice'.symm
  · apply eq_of_get?_eq
    intro i
    cases ht : s.get? i with
    | none =>
        cases ht' : s'.get? i with
        | none => rfl
        | some t' =>
            obtain ⟨t, htt, -⟩ := h.symm.exists_get? ht'
            rw [ht] at htt
            cases htt
    | some t =>
        obtain ⟨t', ht', htt'⟩ := h.exists_get? ht
        rw [ht', Option.some.injEq]
        -- the tokens start at the same offset and have the same length
        have hstart := hstop i (lt_size_of_get? ht).le
        rw [spaceStop_of_get? code ht, spaceStop_of_get? code' ht'] at hstart
        have hlen := htt'.length_eq
        have hlt := hs.start_lt_stop ht
        have hlt' := hs'.start_lt_stop ht'
        obtain ⟨kind, ⟨start, stop⟩, text⟩ := t
        obtain ⟨kind', ⟨start', stop'⟩, text'⟩ := t'
        simp only [Span.length] at hstart hlen hlt hlt'
        rw [Token.mk.injEq, Span.mk.injEq]
        exact ⟨htt'.kind_eq, ⟨hstart, by omega⟩, htt'.text_eq⟩

end TokenStream

/-! ### The spaces of a respaced text -/

namespace Patch

/-- A gap where it stands after a patch, its ends moved with the tokens around it. -/
def movedGap (p : Patch) (gap : Span) : Span := ⟨p.movedStop gap.start, p.movedStart gap.stop⟩

/-- What a patch leaves of a text in a span: its replacement for the span, or else the text. -/
def put (p : Patch) (span : Span) (text : List Char) : List Char :=
  ((p.edits.find? fun e => e.span == span).map Edit.replacement).getD text

variable {p : Patch} {s : TokenStream} {code out text : List Char} {span : Span} {b i : Nat}
  {e : Edit}

theorem put_of_not_mem (h : ∀ e ∈ p.edits, e.span ≠ span) (text : List Char) :
    p.put span text = text := by
  have hnone : (p.edits.find? fun e => e.span == span) = none := by
    apply List.find?_eq_none.2
    intro e he
    simpa using h e he
  rw [put, hnone]
  rfl

namespace Respacing

/-- A patch has one edit for a span. -/
theorem eq_of_span_eq {f : Edit} (h : p.Respacing s code) (he : e ∈ p.edits) (hf : f ∈ p.edits)
    (hspan : e.span = f.span) : e = f := by
  have hle := h.inOrder.start_le_stop e he
  rcases apart_of_mem h.apart he hf with heq | hlt | hlt
  · exact heq.symm
  · rw [← hspan] at hlt
    omega
  · rw [← hspan] at hlt
    omega

theorem put_of_mem (h : p.Respacing s code) (he : e ∈ p.edits) (text : List Char) :
    p.put e.span text = e.replacement := by
  cases hfind : p.edits.find? fun f => f.span == e.span with
  | none =>
      have hne := List.find?_eq_none.1 hfind e he
      simp at hne
  | some f =>
      have hspan : f.span = e.span := by simpa using List.find?_some hfind
      obtain rfl := h.eq_of_span_eq (List.mem_of_find?_eq_some hfind) he hspan
      rw [put, hfind]
      rfl

/-- The ends of a space move with the tokens around it. -/
theorem spaceSpan_moved (h : p.Respacing s code) (hout : p.applied? code = some out)
    (hi : i ≤ s.size) : (s.moved p).spaceSpan out i = p.movedGap (s.spaceSpan code i) := by
  have hstart : (s.moved p).spaceStart i = p.movedStop (s.spaceStart i) := by
    cases i with
    | zero =>
        -- nothing starts before the text
        have hnone : p.startingBefore 0 = [] := List.filter_eq_nil_iff.2 (by simp)
        rw [TokenStream.spaceStart, TokenStream.spaceStart, movedStop, hnone]
        rfl
    | succ b =>
        obtain ⟨t, ht⟩ := TokenStream.exists_get?_of_lt_size (Nat.lt_of_succ_le hi)
        have ht' : (s.moved p).get? b = some (t.moved p) := by
          rw [TokenStream.get?_moved, ht]
          rfl
        rw [TokenStream.spaceStart_succ ht, TokenStream.spaceStart_succ ht']
        rfl
  have hstop : (s.moved p).spaceStop out i = p.movedStart (s.spaceStop code i) := by
    rcases Nat.lt_or_eq_of_le hi with hlt | rfl
    · obtain ⟨t, ht⟩ := TokenStream.exists_get?_of_lt_size hlt
      have ht' : (s.moved p).get? i = some (t.moved p) := by
        rw [TokenStream.get?_moved, ht]
        rfl
      rw [TokenStream.spaceStop_of_get? code ht, TokenStream.spaceStop_of_get? out ht']
      rfl
    · -- every edit stops by the end of the text
      have hall : p.stoppingBy (byteLength code) = p.edits := by
        apply List.filter_eq_self.2
        intro e he
        exact decide_eq_true (h.inOrder.places e he).2.le_byteLength
      have hnone : (s.moved p).get? s.size = none := by
        rw [TokenStream.get?_moved, TokenStream.get?_size]
        rfl
      have hlen := byteLength_applied? h.inOrder hout
      rw [TokenStream.spaceStop_size, movedStart, hall, TokenStream.spaceStop, hnone]
      show byteLength out = _
      omega
  rw [TokenStream.spaceSpan, hstart, hstop]
  rfl

/-- An edit lies before a space that it is not made for, with a token in between, or behind it. -/
theorem before_or_behind (h : p.Respacing s code) (hs : s.LiesIn code) (hi : i ≤ s.size)
    (he : e ∈ p.edits) (hne : e.span ≠ s.spaceSpan code i) :
    e.span.stop < s.spaceStart i ∨ s.spaceStop code i < e.span.start := by
  obtain ⟨b, hb⟩ := h.gaps e he
  obtain ⟨t, u, -, ht, hu, hspan, -⟩ := id hb
  rcases Nat.lt_trichotomy (b + 1) i with hbi | rfl | hib
  · left
    obtain ⟨c, rfl⟩ : ∃ c, i = c + 1 := ⟨i - 1, by omega⟩
    obtain ⟨v, hv⟩ := TokenStream.exists_get?_of_lt_size (Nat.lt_of_succ_le hi)
    have hle := hb.stop_le_token_start hs.toInOrder hv (by omega)
    have hlt := hs.start_lt_stop hv
    rw [TokenStream.spaceStart_succ hv]
    omega
  · exact absurd (hspan.trans (TokenStream.spaceSpan_succ code ht hu).symm) hne
  · right
    obtain ⟨v, hv⟩ := TokenStream.exists_get?_of_lt_size (s := s) (i := i)
      (by have := TokenStream.lt_size_of_get? ht; omega)
    have hle := hb.token_stop_le_start hs.toInOrder hv (by omega)
    have hlt := hs.start_lt_stop hv
    rw [TokenStream.spaceStop_of_get? code hv]
    omega

/-- A space of the result holds what the patch leaves of the space of the text. -/
theorem space?_moved (h : p.Respacing s code) (hs : s.LiesIn code)
    (hout : p.applied? code = some out) (htext : s.space? code i = some text) :
    (s.moved p).space? out i = some (p.put (s.spaceSpan code i) text) := by
  have hi := TokenStream.le_size_of_space? htext
  have hi' : i ≤ (s.moved p).size := by
    rw [← (h.alike_moved hs hout).size_eq]
    exact hi
  have hspan := h.spaceSpan_moved hout hi
  rw [TokenStream.spaceSpan, movedGap, Span.mk.injEq] at hspan
  rw [TokenStream.space?_eq_slice? hi', hspan.1, hspan.2]
  rw [TokenStream.space?_eq_slice? hi] at htext
  by_cases hedit : ∃ e ∈ p.edits, e.span = s.spaceSpan code i
  · obtain ⟨e, he, hspan⟩ := hedit
    rw [← hspan, h.put_of_mem he]
    exact slice?_of_replaced h.inOrder h.apart hout he
  · have hno : ∀ e ∈ p.edits, e.span ≠ s.spaceSpan code i :=
      fun e he hspan => hedit ⟨e, he, hspan⟩
    rw [put_of_not_mem hno]
    apply slice?_between_of_untouched h.inOrder hout htext
      (Nat.le.intro (add_byteLength_of_slice? htext))
    intro e he
    have hle := h.inOrder.start_le_stop e he
    rcases h.before_or_behind hs hi he (hno e he) with hlt | hlt
    · exact Or.inl ⟨by omega, hlt.le⟩
    · exact Or.inr ⟨hlt.le, by omega⟩

end Respacing

end Patch

end ParenGap
