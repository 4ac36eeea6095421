import Mathlib.Tactic
import ParenGap.Proofs.Edit.Patch
import ParenGap.Proofs.Token.Lookup
import ParenGap.Text

/-!
# What a patch moves

A patch moves what stands behind its edits. If it only puts other white space into gaps, then the
tokens of the text stand in the result unchanged, in the same order.
-/

set_option autoImplicit false

namespace ParenGap.Patch

/-! ## Offsets moved by a patch

A patch moves what stands in a text. The start of something moves by what the edits add that stop at
or before it, its stop by what the edits add that start before it; the two differ at an insertion.
Both are cuts of the patch: tests that hold for the edits before an offset and fail for those after
it. What stands in the result between two cuts is the text between the offsets, with the edits
between the cuts applied (`IsCut.splice?_between`).

An offset is clear of a patch if no edit runs across it. Moves keep the order of clear offsets. A
stretch that no edit touches stands unchanged in the result (`slice?_of_untouched`), and in the
place of an edit stands its replacement (`slice?_of_replaced`).
-/

open Text

/-- The edits that stop at or before an offset. -/
def stoppingBy (p : Patch) (n : Nat) : List Edit := p.edits.filter fun e => decide (e.span.stop ≤ n)

/-- The edits that start before an offset. -/
def startingBefore (p : Patch) (n : Nat) : List Edit :=
  p.edits.filter fun e => decide (e.span.start < n)

/-- Where something that starts at an offset of a text starts in the result. What is put in at the
offset itself comes before it. -/
def movedStart (p : Patch) (n : Nat) : Nat := (n + Edit.totalGrowth (p.stoppingBy n)).toNat

/-- Where something that stops at an offset of a text stops in the result. What is put in at the
offset itself comes after it. -/
def movedStop (p : Patch) (n : Nat) : Nat := (n + Edit.totalGrowth (p.startingBefore n)).toNat

/-- Where something that covers a span of a text stands in the result. -/
def movedSpan (p : Patch) (s : Span) : Span := ⟨p.movedStart s.start, p.movedStop s.stop⟩

/-! ### Cuts -/

/-- No edit runs across the offset. -/
def Clear (p : Patch) (n : Nat) : Prop :=
  ∀ e ∈ p.edits, e.span.stop ≤ n ∨ n ≤ e.span.start

/-- The test holds for the edits before an offset and fails for those after it. -/
structure IsCut (p : Patch) (n : Nat) (q : Edit → Bool) : Prop where
  before : ∀ e ∈ p.edits, q e = true → e.span.stop ≤ n
  after : ∀ e ∈ p.edits, q e = false → n ≤ e.span.start
  closed : p.edits.Pairwise fun e f => q f = true → q e = true

theorem filter_append_filter_not {α : Type} {q : α → Bool} {l : List α}
    (h : l.Pairwise fun a b => q b = true → q a = true) :
    l = l.filter q ++ l.filter fun a => !q a := by
  induction l with
  | nil => rfl
  | cons a l ih =>
      obtain ⟨hhead, htail⟩ := List.pairwise_cons.1 h
      cases ha : q a with
      | true =>
          rw [List.filter_cons_of_pos ha, List.filter_cons_of_neg (by simp [ha]),
            List.cons_append, ← ih htail]
      | false =>
          -- after an element that fails the test all others fail it
          have hall : ∀ b ∈ l, q b = false := by
            intro b hb
            rw [Bool.eq_false_iff]
            intro hqb
            simp [hhead b hb hqb] at ha
          have hnone : (a :: l).filter q = [] := by simpa [ha] using hall
          have hfull : ((a :: l).filter fun b => !q b) = a :: l := by simpa [ha] using hall
          rw [hnone, hfull, List.nil_append]

section Cuts

variable {p : Patch} {code out t : List Char} {a b : Nat} {q r : Edit → Bool} {e f : Edit}

/-- The edits that stop at or before a clear offset make a cut. -/
theorem Clear.isCut_stop (ha : p.Clear a) (h : InOrder code p.edits) :
    p.IsCut a fun e => decide (e.span.stop ≤ a) where
  before := by simp
  after := by
    intro e he hq
    exact (ha e he).resolve_left (of_decide_eq_false hq)
  closed := by
    refine h.ordered.imp_of_mem fun {e f} he hf hef hq => ?_
    have hle := h.start_le_stop f hf
    simp only [decide_eq_true_eq] at hq ⊢
    omega

/-- The edits that start before a clear offset make a cut. -/
theorem Clear.isCut_start (ha : p.Clear a) (h : InOrder code p.edits) :
    p.IsCut a fun e => decide (e.span.start < a) where
  before := by
    intro e he hq
    have hlt := of_decide_eq_true hq
    rcases ha e he with hstop | hstart
    · exact hstop
    · omega
  after := by
    intro e he hq
    exact Nat.le_of_not_lt (of_decide_eq_false hq)
  closed := by
    refine h.ordered.imp_of_mem fun {e f} he hf hef hq => ?_
    have hle := h.start_le_stop e he
    simp only [decide_eq_true_eq] at hq ⊢
    omega

/-- What stands in the result between two cuts is the text between their offsets with the edits
between the cuts applied. -/
theorem IsCut.splice?_between (hq : p.IsCut a q) (hr : p.IsCut b r) (h : InOrder code p.edits)
    (hout : p.applied? code = some out) (ha : IsPlace code a) (hb : IsPlace code b) (hab : a ≤ b)
    (hqr : ∀ e ∈ p.edits, q e = true → r e = true) :
    ∃ m n w, splice? code a b ((p.edits.filter r).filter fun e => !q e) = some w ∧
      slice? out m n = some w ∧ (m : Int) = a + Edit.totalGrowth (p.edits.filter q) ∧
        (n : Int) = b + Edit.totalGrowth (p.edits.filter r) := by
  have hsplit := filter_append_filter_not hr.closed
  have hsplit' := filter_append_filter_not (hq.closed.sublist (List.filter_sublist (p := r)))
  have hfirst : (p.edits.filter r).filter q = p.edits.filter q := by
    rw [List.filter_filter]
    refine List.filter_congr fun e he => ?_
    cases hqe : q e with
    | true => simp [hqr e he hqe]
    | false => rfl
  rw [hfirst] at hsplit'
  generalize hms : ((p.edits.filter r).filter fun e => !q e) = ms at hsplit' ⊢
  generalize hfs : (p.edits.filter fun e => !r e) = fs at hsplit
  have hin : InOrder code (p.edits.filter r) := h.sublist List.filter_sublist
  have hes' : InOrder code (p.edits.filter q) := h.sublist List.filter_sublist
  have hms' : InOrder code ms := hms ▸ hin.sublist List.filter_sublist
  have hfs' : InOrder code fs := hfs ▸ h.sublist List.filter_sublist
  -- the three parts of the result
  obtain ⟨u, hu⟩ := hes'.exists_splice? (.zero code) ha (Nat.zero_le a) (by
    intro e he
    obtain ⟨hmem, hqe⟩ := List.mem_filter.1 he
    exact ⟨Nat.zero_le _, hq.before e hmem hqe⟩)
  obtain ⟨w, hw⟩ := hms'.exists_splice? ha hb hab (by
    intro e he
    rw [← hms] at he
    obtain ⟨hmem, hqe⟩ := List.mem_filter.1 he
    obtain ⟨hmem, hre⟩ := List.mem_filter.1 hmem
    exact ⟨hq.after e hmem (by simpa using hqe), hr.before e hmem hre⟩)
  obtain ⟨v, hv⟩ := hfs'.exists_splice? hb (.last code) hb.le_byteLength (by
    intro e he
    rw [← hfs] at he
    obtain ⟨hmem, hre⟩ := List.mem_filter.1 he
    exact ⟨hr.after e hmem (by simpa using hre), (h.places e hmem).2.le_byteLength⟩)
  have hjoin := splice?_append (splice?_append hu hw) hv
  obtain rfl : out = u ++ w ++ v := by
    rw [applied?_eq_splice?, hsplit, hsplit', hjoin, Option.some.injEq] at hout
    exact hout.symm
  have hlen := byteLength_splice? hu hes'.start_le_stop
  have hlen' := byteLength_splice? hw hms'.start_le_stop
  refine ⟨byteLength u, byteLength u + byteLength w, w, hw,
    slice?_eq_some_iff.2 ⟨u, v, List.append_assoc u w v, rfl, rfl⟩, by omega, ?_⟩
  rw [hsplit', Edit.totalGrowth_append]
  omega

end Cuts

/-! ### Moves -/

section Moves

variable {p : Patch} {code out t : List Char} {a b : Nat} {e f : Edit}

/-- Starts of things that start at clear offsets keep their order. -/
theorem movedStart_le_movedStart (h : InOrder code p.edits) (hout : p.applied? code = some out)
    (ha : IsPlace code a) (hb : IsPlace code b) (hca : p.Clear a) (hcb : p.Clear b) (hab : a ≤ b) :
    p.movedStart a ≤ p.movedStart b := by
  obtain ⟨m, n, w, -, hslice, hm, hn⟩ := (hca.isCut_stop h).splice?_between (hcb.isCut_stop h) h
    hout ha hb hab (by
      intro e he hstop
      simp only [decide_eq_true_eq] at hstop ⊢
      exact hstop.trans hab)
  have hle := add_byteLength_of_slice? hslice
  rw [movedStart, movedStart, stoppingBy, stoppingBy]
  omega

/-- Stops of things that stop at clear offsets keep their order. -/
theorem movedStop_le_movedStop (h : InOrder code p.edits) (hout : p.applied? code = some out)
    (ha : IsPlace code a) (hb : IsPlace code b) (hca : p.Clear a) (hcb : p.Clear b) (hab : a ≤ b) :
    p.movedStop a ≤ p.movedStop b := by
  obtain ⟨m, n, w, -, hslice, hm, hn⟩ := (hca.isCut_start h).splice?_between (hcb.isCut_start h) h
    hout ha hb hab (by
      intro e he hstart
      simp only [decide_eq_true_eq] at hstart ⊢
      exact hstart.trans_le hab)
  have hle := add_byteLength_of_slice? hslice
  rw [movedStop, movedStop, startingBefore, startingBefore]
  omega

/-- What stands in the result between something that stops at a clear offset and something that
starts at a later one. -/
theorem splice?_between (h : InOrder code p.edits) (hout : p.applied? code = some out)
    (ha : IsPlace code a) (hb : IsPlace code b) (hca : p.Clear a) (hcb : p.Clear b) (hab : a ≤ b) :
    ∃ w, splice? code a b ((p.stoppingBy b).filter fun e => !decide (e.span.start < a)) = some w ∧
      slice? out (p.movedStop a) (p.movedStart b) = some w := by
  obtain ⟨m, n, w, hw, hslice, hm, hn⟩ := (hca.isCut_start h).splice?_between (hcb.isCut_stop h) h
    hout ha hb hab (by
      intro e he hstart
      have hstop := (hca.isCut_start h).before e he hstart
      simp only [decide_eq_true_eq]
      exact hstop.trans hab)
  have hstart : p.movedStop a = m := by
    rw [movedStop, startingBefore]
    omega
  have hstop : p.movedStart b = n := by
    rw [movedStart, stoppingBy]
    omega
  rw [hstart, hstop]
  exact ⟨w, hw, hslice⟩

theorem movedStop_le_movedStart (h : InOrder code p.edits) (hout : p.applied? code = some out)
    (ha : IsPlace code a) (hb : IsPlace code b) (hca : p.Clear a) (hcb : p.Clear b) (hab : a ≤ b) :
    p.movedStop a ≤ p.movedStart b := by
  obtain ⟨w, -, hw⟩ := splice?_between h hout ha hb hca hcb hab
  exact Nat.le.intro (add_byteLength_of_slice? hw)

theorem isPlace_movedStart (h : InOrder code p.edits) (hout : p.applied? code = some out)
    (ha : IsPlace code a) (hca : p.Clear a) : IsPlace out (p.movedStart a) := by
  have hzero : p.Clear 0 := fun e _ => Or.inr (Nat.zero_le _)
  obtain ⟨w, -, hw⟩ := splice?_between h hout (.zero code) ha hzero hca (Nat.zero_le a)
  exact (isPlace_of_slice? hw).2

theorem isPlace_movedStop (h : InOrder code p.edits) (hout : p.applied? code = some out)
    (ha : IsPlace code a) (hca : p.Clear a) : IsPlace out (p.movedStop a) := by
  have hlast : p.Clear (byteLength code) :=
    fun e he => Or.inl (h.places e he).2.le_byteLength
  obtain ⟨w, -, hw⟩ := splice?_between h hout ha (.last code) hca hlast ha.le_byteLength
  exact (isPlace_of_slice? hw).1

/-- An edit starts before the stop of a stretch that no edit touches exactly if it stops by the
start of it. -/
theorem startingBefore_eq_stoppingBy (h : InOrder code p.edits) (hab : a < b)
    (hfree : ∀ e ∈ p.edits, e.span.stop ≤ a ∨ b ≤ e.span.start) :
    p.startingBefore b = p.stoppingBy a := by
  refine List.filter_congr fun e he => ?_
  have hle := h.start_le_stop e he
  have hcase := hfree e he
  rw [decide_eq_decide]
  omega

/-- A stretch that no edit touches stands unchanged in the result, moved by what the edits before it
add. -/
theorem slice?_of_untouched (h : InOrder code p.edits) (hout : p.applied? code = some out)
    (ht : slice? code a b = some t) (hab : a < b)
    (hfree : ∀ e ∈ p.edits, e.span.stop ≤ a ∨ b ≤ e.span.start) :
    slice? out (p.movedStart a) (p.movedStop b) = some t ∧
      (p.movedStart a : Int) = a + Edit.totalGrowth (p.stoppingBy a) ∧
      (p.movedStop b : Int) = b + Edit.totalGrowth (p.stoppingBy a) := by
  obtain ⟨ha, hb⟩ := isPlace_of_slice? ht
  have hsame := startingBefore_eq_stoppingBy h hab hfree
  have hca : p.Clear a := fun e he => by
    have := hfree e he
    omega
  have hcb : p.Clear b := fun e he => by
    have := hfree e he
    omega
  obtain ⟨m, n, w, hw, hslice, hm, hn⟩ := (hca.isCut_stop h).splice?_between (hcb.isCut_start h) h
    hout ha hb hab.le (by
      intro e he hstop
      have hmem : e ∈ p.stoppingBy a := List.mem_filter.2 ⟨he, hstop⟩
      rw [← hsame] at hmem
      exact (List.mem_filter.1 hmem).2)
  -- no edit is left between the two offsets, so what stands there is the old text
  have hnone : ((p.startingBefore b).filter fun e => !decide (e.span.stop ≤ a)) = [] := by
    rw [hsame]
    apply List.filter_eq_nil_iff.2
    intro e he
    simpa using (List.mem_filter.1 he).2
  obtain rfl : t = w := by
    rw [startingBefore] at hnone
    rw [hnone, splice?, ht, Option.some.injEq] at hw
    exact hw
  rw [← startingBefore, hsame] at hn
  have hstart : p.movedStart a = m := by
    rw [movedStart, stoppingBy]
    omega
  have hstop : p.movedStop b = n := by
    rw [movedStop, hsame]
    omega
  rw [hstart, hstop]
  exact ⟨hslice, hm, hn⟩

/-- What stands in the result between two offsets between which no edit lies is unchanged. -/
theorem slice?_between_of_untouched (h : InOrder code p.edits) (hout : p.applied? code = some out)
    (ht : slice? code a b = some t) (hab : a ≤ b)
    (hfree : ∀ e ∈ p.edits, e.span.start < a ∧ e.span.stop ≤ a ∨
      b ≤ e.span.start ∧ b < e.span.stop) :
    slice? out (p.movedStop a) (p.movedStart b) = some t := by
  obtain ⟨ha, hb⟩ := isPlace_of_slice? ht
  have hca : p.Clear a := fun e he => by
    have := hfree e he
    omega
  have hcb : p.Clear b := fun e he => by
    have := hfree e he
    omega
  obtain ⟨w, hw, hslice⟩ := splice?_between h hout ha hb hca hcb hab
  -- an edit between the two offsets would start at `a` or later and stop at `b` or before
  have hnone : ((p.stoppingBy b).filter fun e => !decide (e.span.start < a)) = [] := by
    apply List.filter_eq_nil_iff.2
    intro e he
    obtain ⟨hmem, hstop⟩ := List.mem_filter.1 he
    have hcase := hfree e hmem
    simp only [decide_eq_true_eq] at hstop
    simp only [Bool.not_eq_true', decide_eq_false_iff_not]
    omega
  rw [hnone, splice?, ht, Option.some.injEq] at hw
  rw [hslice, hw]

end Moves

/-! ### Edits that lie apart -/

section Apart

variable {p : Patch} {code out : List Char} {e f : Edit}

theorem apart_of_mem (hapart : p.edits.Pairwise fun e f => e.span.stop < f.span.start)
    (he : e ∈ p.edits) (hf : f ∈ p.edits) :
    f = e ∨ f.span.stop < e.span.start ∨ e.span.stop < f.span.start := by
  obtain ⟨i, hi, rfl⟩ := List.getElem_of_mem he
  obtain ⟨j, hj, rfl⟩ := List.getElem_of_mem hf
  rw [List.pairwise_iff_getElem] at hapart
  rcases Nat.lt_trichotomy i j with hij | rfl | hij
  · exact Or.inr (Or.inr (hapart i j hi hj hij))
  · exact Or.inl rfl
  · exact Or.inr (Or.inl (hapart j i hj hi hij))

/-- An edit that lies apart from the others is the only one between its start and its stop. -/
theorem filter_stoppingBy_eq_singleton (h : InOrder code p.edits)
    (hapart : p.edits.Pairwise fun e f => e.span.stop < f.span.start) (he : e ∈ p.edits) :
    ((p.stoppingBy e.span.stop).filter fun f => !decide (f.span.start < e.span.start)) = [e] := by
  -- the edits before it start before its start, and those after it stop after its stop
  obtain ⟨es, fs, hsplit⟩ := List.append_of_mem he
  rw [hsplit, List.pairwise_append, List.pairwise_cons] at hapart
  obtain ⟨-, ⟨hafter, -⟩, hbefore⟩ := hapart
  have hnone : (es.filter fun f => decide (f.span.stop ≤ e.span.stop)).filter
      (fun f => !decide (f.span.start < e.span.start)) = [] := by
    apply List.filter_eq_nil_iff.2
    intro f hf
    have hmem := List.mem_of_mem_filter hf
    have hlt := hbefore f hmem e List.mem_cons_self
    have hle := h.start_le_stop f (by simp [hsplit, hmem])
    simp only [Bool.not_eq_true', decide_eq_false_iff_not]
    omega
  have hnone' : (fs.filter fun f => decide (f.span.stop ≤ e.span.stop)) = [] := by
    apply List.filter_eq_nil_iff.2
    intro f hf
    have hlt := hafter f hf
    have hle := h.start_le_stop f (by simp [hsplit, hf])
    simp only [decide_eq_true_eq]
    omega
  rw [stoppingBy, hsplit, List.filter_append, List.filter_append, hnone, List.nil_append,
    List.filter_cons_of_pos (by simp), hnone', List.filter_cons_of_pos (by simp), List.filter_nil]

/-- What stands in the result in the place of an edit is the replacement. -/
theorem slice?_of_replaced (h : InOrder code p.edits)
    (hapart : p.edits.Pairwise fun e f => e.span.stop < f.span.start)
    (hout : p.applied? code = some out) (he : e ∈ p.edits) :
    slice? out (p.movedStop e.span.start) (p.movedStart e.span.stop) = some e.replacement := by
  obtain ⟨hplace, hplace'⟩ := h.places e he
  have hle := h.start_le_stop e he
  have hca : p.Clear e.span.start := fun f hf => by
    rcases apart_of_mem hapart he hf with rfl | hfe | hfe <;> omega
  have hcb : p.Clear e.span.stop := fun f hf => by
    rcases apart_of_mem hapart he hf with rfl | hfe | hfe <;> omega
  obtain ⟨w, hw, hslice⟩ := splice?_between h hout hplace hplace' hca hcb hle
  rw [filter_stoppingBy_eq_singleton h hapart he] at hw
  obtain ⟨kept, rest, hkept, hrest, rfl⟩ := splice?_cons_eq_some_iff.1 hw
  rw [slice?_self hplace, Option.some.injEq] at hkept
  rw [splice?, slice?_self hplace', Option.some.injEq] at hrest
  simpa [← hkept, ← hrest] using hslice

end Apart

end ParenGap.Patch

namespace ParenGap

/-! ## Patches that respace a text

An edit respaces the gap after token `b` if it replaces the white space between token `b` and token
`b + 1` by other white space. A patch of such edits in different gaps (`Patch.Respacing`) can be
applied. The result has the same characters but for white space (`Respacing.filter_eq`), every token
stands in it unchanged, moved along (`Respacing.slice?_token`), and the tokens are still in order
(`Respacing.movedStop_le_movedStart`).
-/

open Text

/-- The edit replaces the white space between token `b` and the token after it by white space. -/
def Edit.Respaces (e : Edit) (s : TokenStream) (code : List Char) (b : Nat) : Prop :=
  ∃ t u text, s.get? b = some t ∧ s.get? (b + 1) = some u ∧
    e.span = ⟨t.span.stop, u.span.start⟩ ∧ slice? code t.span.stop u.span.start = some text ∧
    (∀ c ∈ text, isBlank c = true) ∧ ∀ c ∈ e.replacement, isBlank c = true

/-- Every edit respaces a gap, and something lies between any two of them. -/
structure Patch.Respacing (p : Patch) (s : TokenStream) (code : List Char) : Prop where
  gaps : ∀ e ∈ p.edits, ∃ b, e.Respaces s code b
  apart : p.edits.Pairwise fun e f => e.span.stop < f.span.start

variable {p : Patch} {s : TokenStream} {code out text : List Char} {b i j : Nat} {e f : Edit}
  {t u : Token}

section Edits

theorem Edit.Respaces.start_le_stop (h : e.Respaces s code b) : e.span.start ≤ e.span.stop := by
  obtain ⟨t, u, text, -, -, hspan, htext, -⟩ := h
  have hlen := add_byteLength_of_slice? htext
  rw [hspan]
  exact Nat.le.intro hlen

theorem Edit.Respaces.places (h : e.Respaces s code b) :
    IsPlace code e.span.start ∧ IsPlace code e.span.stop := by
  obtain ⟨t, u, text, -, -, hspan, htext, -⟩ := h
  rw [hspan]
  exact isPlace_of_slice? htext

/-- A respaced gap and its replacement hold nothing but white space. -/
theorem Edit.Respaces.exists_blank (h : e.Respaces s code b) :
    ∃ text, slice? code e.span.start e.span.stop = some text ∧
      text.filter (fun c => !isBlank c) = [] ∧ e.replacement.filter (fun c => !isBlank c) = [] := by
  obtain ⟨t, u, text, -, -, hspan, htext, hblank, hblank'⟩ := h
  refine ⟨text, by rw [hspan]; exact htext, ?_, ?_⟩
  · apply List.filter_eq_nil_iff.2
    intro c hc
    simp [hblank c hc]
  · apply List.filter_eq_nil_iff.2
    intro c hc
    simp [hblank' c hc]

/-- A token up to the one before a respaced gap stops at or before it. -/
theorem Edit.Respaces.token_stop_le_start (h : e.Respaces s code b) (hs : s.InOrder)
    (ht : s.get? i = some t) (hib : i ≤ b) : t.span.stop ≤ e.span.start := by
  obtain ⟨before, after, text, hbefore, -, hspan, -⟩ := h
  rw [hspan]
  rcases Nat.lt_or_eq_of_le hib with hlt | rfl
  · exact ((hs.stop_lt_stop_iff ht hbefore).2 hlt).le
  · rw [ht, Option.some.injEq] at hbefore
    rw [hbefore]

/-- A token from the one after a respaced gap on starts at or after it. -/
theorem Edit.Respaces.stop_le_token_start (h : e.Respaces s code b) (hs : s.InOrder)
    (ht : s.get? i = some t) (hbi : b < i) : e.span.stop ≤ t.span.start := by
  obtain ⟨before, after, text, -, hafter, hspan, -⟩ := h
  rw [hspan]
  rcases Nat.lt_or_eq_of_le (Nat.succ_le_of_lt hbi) with hlt | rfl
  · exact ((hs.start_lt_start_iff hafter ht).2 hlt).le
  · rw [ht, Option.some.injEq] at hafter
    rw [hafter]

/-- Edits that respace different gaps lie apart, in the order of the gaps. -/
theorem Edit.Respaces.stop_lt_start (h : e.Respaces s code i) (h' : f.Respaces s code j)
    (hs : s.InOrder) (hij : i < j) : e.span.stop < f.span.start := by
  obtain ⟨t, u, text, ht, hu, hspan, -⟩ := id h'
  have hbefore := h.stop_le_token_start hs ht hij
  have htoken := hs.start_lt_stop ht
  rw [hspan]
  exact hbefore.trans_lt htoken

end Edits

namespace Patch

namespace Respacing

theorem inOrder (h : p.Respacing s code) : InOrder code p.edits where
  start_le_stop := by
    intro e he
    obtain ⟨b, hb⟩ := h.gaps e he
    exact hb.start_le_stop
  places := by
    intro e he
    obtain ⟨b, hb⟩ := h.gaps e he
    exact hb.places
  ordered := h.apart.imp fun hef => hef.le

/-- No edit touches a token. -/
theorem untouched (h : p.Respacing s code) (hs : s.InOrder) (ht : s.get? i = some t)
    (he : e ∈ p.edits) : e.span.stop ≤ t.span.start ∨ t.span.stop ≤ e.span.start := by
  obtain ⟨b, hb⟩ := h.gaps e he
  rcases Nat.lt_or_ge b i with hbi | hib
  · exact Or.inl (hb.stop_le_token_start hs ht hbi)
  · exact Or.inr (hb.token_stop_le_start hs ht hib)

/-- Respacing leaves the characters that are not white space as they are. -/
theorem filter_eq (h : p.Respacing s code) (hout : p.applied? code = some out) :
    out.filter (fun c => !isBlank c) = code.filter (fun c => !isBlank c) := by
  apply filter_applied? h.inOrder hout
  intro e he
  obtain ⟨b, hb⟩ := h.gaps e he
  obtain ⟨text, htext, hblank, hblank'⟩ := hb.exists_blank
  exact ⟨text, htext, by rw [hblank, hblank']⟩

/-- Every token stands unchanged in the result, moved by what the edits before it add. -/
theorem slice?_token (h : p.Respacing s code) (hs : s.LiesIn code)
    (hout : p.applied? code = some out) (ht : s.get? i = some t) :
    slice? out (p.movedStart t.span.start) (p.movedStop t.span.stop) = some t.text ∧
      (p.movedStart t.span.start : Int) =
        t.span.start + Edit.totalGrowth (p.stoppingBy t.span.start) ∧
      (p.movedStop t.span.stop : Int) =
        t.span.stop + Edit.totalGrowth (p.stoppingBy t.span.start) := by
  apply slice?_of_untouched h.inOrder hout (hs.texts t (TokenStream.mem_of_get? ht))
    (hs.start_lt_stop ht)
  intro e he
  exact h.untouched hs.toInOrder ht he

/-- No edit runs across an offset from the start to the stop of a token. -/
theorem clear (h : p.Respacing s code) (hs : s.InOrder) (ht : s.get? i = some t) {n : Nat}
    (hstart : t.span.start ≤ n) (hstop : n ≤ t.span.stop) : p.Clear n := by
  intro e he
  have := h.untouched hs ht he
  omega

/-- Tokens are in order in the result. -/
theorem movedStop_le_movedStart (h : p.Respacing s code) (hs : s.LiesIn code)
    (hout : p.applied? code = some out) (ht : s.get? i = some t) (hu : s.get? j = some u)
    (hij : i < j) : p.movedStop t.span.stop ≤ p.movedStart u.span.start := by
  have htoken := hs.start_lt_stop ht
  have htoken' := hs.start_lt_stop hu
  have hplace := (isPlace_of_slice? (hs.texts t (TokenStream.mem_of_get? ht))).2
  have hplace' := (isPlace_of_slice? (hs.texts u (TokenStream.mem_of_get? hu))).1
  have hclear := h.clear hs.toInOrder ht htoken.le le_rfl
  have hclear' := h.clear hs.toInOrder hu le_rfl htoken'.le
  exact Patch.movedStop_le_movedStart h.inOrder hout hplace hplace' hclear hclear'
    (hs.stop_le_start ht hu hij)

end Respacing

end Patch

end ParenGap
