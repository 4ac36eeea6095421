import Mathlib.Tactic
import ParenGap.Proofs.Edit.Patch

/-!
# The edits of a patch

Of the order in which edits are collected a patch takes only that among edits of one start
(`Patch.ofList_reordered`), and of edits that collide it keeps the first (`Patch.ofList_firstWins`).
-/

set_option autoImplicit false

namespace ParenGap

/-! ## The order in which edits are collected

Edits are sorted by their starts, those of one start staying in the order in which they came. This
determines the sorted list (`StablySorted.unique`), so that only the order among edits of one start
matters for a patch. And not even all of these matter: an edit that starts where an earlier one
starts is never kept, whether the earlier one is kept or dropped (`keepFrom_firsts`).

The main statement is `ofList_reordered`.
-/

/-- Whether an edit starts at the offset `n`. -/
def Edit.startsAt (n : Nat) (e : Edit) : Bool := e.span.start == n

theorem Edit.startsAt_iff {n : Nat} {e : Edit} : e.startsAt n = true ↔ e.span.start = n :=
  beq_iff_eq

theorem Edit.not_startsAt_iff {n : Nat} {e : Edit} :
    (!e.startsAt n) = true ↔ e.span.start ≠ n := by
  rw [Bool.not_eq_true', ← Bool.not_eq_true, startsAt_iff]

namespace Patch

variable {es fs ss ts : List Edit} {last : Option Edit} {n : Nat}

/-! ### Stable sorting -/

/-- The same edits in another order, but those of one start in the same order. -/
structure SameOrder (es fs : List Edit) : Prop where
  perm : es.Perm fs
  filter_eq : ∀ n, es.filter (Edit.startsAt n) = fs.filter (Edit.startsAt n)

/-- The same edits in the order of their starts, those of one start in the order in which they
came. -/
structure StablySorted (es sorted : List Edit) : Prop extends SameOrder es sorted where
  ordered : sorted.Pairwise fun a b => a.span.start ≤ b.span.start

theorem SameOrder.symm (h : SameOrder es fs) : SameOrder fs es where
  perm := h.perm.symm
  filter_eq n := (h.filter_eq n).symm

theorem SameOrder.trans (h : SameOrder es fs) (h' : SameOrder fs ss) : SameOrder es ss where
  perm := h.perm.trans h'.perm
  filter_eq n := (h.filter_eq n).trans (h'.filter_eq n)

/-- Lists that agree on the edits of each start have the same edits. -/
theorem SameOrder.of_filter_eq
    (h : ∀ n, es.filter (Edit.startsAt n) = fs.filter (Edit.startsAt n)) : SameOrder es fs where
  perm := by
    rw [List.perm_iff_count]
    intro e
    have hself : e.startsAt e.span.start = true := Edit.startsAt_iff.2 rfl
    rw [← List.count_filter hself, h, List.count_filter hself]
  filter_eq := h

theorem start_le_of_mem_cons {a b : Edit}
    (h : (a :: es).Pairwise fun a b => a.span.start ≤ b.span.start) (hb : b ∈ a :: es) :
    a.span.start ≤ b.span.start := by
  rcases List.mem_cons.1 hb with rfl | hb
  · exact le_rfl
  · exact List.rel_of_pairwise_cons h hb

/-- Lists in order that agree on the edits of each start are equal. -/
theorem eq_of_ordered (hs : ss.Pairwise fun a b => a.span.start ≤ b.span.start)
    (ht : ts.Pairwise fun a b => a.span.start ≤ b.span.start)
    (h : ∀ n, ss.filter (Edit.startsAt n) = ts.filter (Edit.startsAt n)) : ss = ts := by
  induction ss generalizing ts with
  | nil => exact (SameOrder.of_filter_eq h).perm.nil_eq
  | cons a ss ih =>
      have hperm := (SameOrder.of_filter_eq h).perm
      cases ts with
      | nil => exact absurd hperm.eq_nil (List.cons_ne_nil a ss)
      | cons b ts =>
          have hab := start_le_of_mem_cons hs (hperm.mem_iff.2 List.mem_cons_self)
          have hba := start_le_of_mem_cons ht (hperm.mem_iff.1 List.mem_cons_self)
          -- both heads are the first edit of their common start
          have ha : a.startsAt a.span.start = true := Edit.startsAt_iff.2 rfl
          have hb : b.startsAt a.span.start = true := Edit.startsAt_iff.2 (hba.antisymm hab)
          have hheads := h a.span.start
          rw [List.filter_cons_of_pos ha, List.filter_cons_of_pos hb, List.cons.injEq] at hheads
          obtain ⟨rfl, -⟩ := hheads
          rw [ih hs.of_cons ht.of_cons]
          intro n
          have hn := h n
          rw [List.filter_cons, List.filter_cons] at hn
          split at hn
          · exact (List.cons.inj hn).2
          · exact hn

/-- There is one way only to sort edits stably. -/
theorem StablySorted.unique (h : StablySorted es ss) (h' : StablySorted es ts) : ss = ts :=
  eq_of_ordered h.ordered h'.ordered fun n => (h.filter_eq n).symm.trans (h'.filter_eq n)

theorem stablySorted_mergeSort (es : List Edit) : StablySorted es (es.mergeSort startsBefore) where
  perm := (List.mergeSort_perm es startsBefore).symm
  ordered := mergeSort_startsBefore_pairwise es
  filter_eq n := by
    have hstarts : ∀ e ∈ es.filter (Edit.startsAt n), e.span.start = n :=
      fun e he => Edit.startsAt_iff.1 (List.mem_filter.1 he).2
    -- the edits of one start are in order already, so that sorting leaves them as they come
    have hordered : (es.filter (Edit.startsAt n)).Pairwise fun a b => startsBefore a b = true := by
      apply List.pairwise_of_forall_mem_list
      intro a ha b hb
      exact decide_eq_true ((hstarts a ha).trans (hstarts b hb).symm).le
    have hsub := List.sublist_mergeSort startsBefore_trans startsBefore_total hordered
      List.filter_sublist
    have hsub' := hsub.filter (Edit.startsAt n)
    rw [List.filter_filter, List.filter_congr fun e _ => Bool.and_self (e.startsAt n)] at hsub'
    exact hsub'.eq_of_length
      ((List.mergeSort_perm es startsBefore).symm.filter (Edit.startsAt n)).length_eq

theorem SameOrder.mergeSort_eq (h : SameOrder es fs) :
    es.mergeSort startsBefore = fs.mergeSort startsBefore :=
  StablySorted.unique (stablySorted_mergeSort es)
    { toSameOrder := h.trans (stablySorted_mergeSort fs).toSameOrder
      ordered := (stablySorted_mergeSort fs).ordered }

/-! ### Repeated starts -/

/-- The edits of a list without those that start where an earlier one starts. -/
def firsts (es : List Edit) : List Edit :=
  es.eraseDupsBy fun later earlier => later.span.start == earlier.span.start

@[simp] theorem firsts_nil : firsts [] = [] := rfl

theorem firsts_cons (e : Edit) (es : List Edit) :
    firsts (e :: es) = e :: firsts (es.filter fun f => !f.startsAt e.span.start) := by
  rw [firsts, List.eraseDupsBy_cons, firsts]
  congr 2
  apply List.filter_congr
  intro f _
  exact Bool.decide_eq_false

/-- Induction along the first edits of the starts: after an edit, those that start elsewhere. -/
theorem firsts_induction {motive : List Edit → Prop} (nil : motive [])
    (cons : ∀ e es, motive (es.filter fun f => !f.startsAt e.span.start) → motive (e :: es)) :
    ∀ es, motive es
  | [] => nil
  | e :: es => cons e es (firsts_induction nil cons _)
  termination_by es => es.length
  decreasing_by
    have hle := List.length_filter_le (fun f => !f.startsAt e.span.start) es
    rw [List.length_cons]
    omega

theorem firsts_sublist (es : List Edit) : (firsts es).Sublist es := by
  induction es using firsts_induction with
  | nil => exact List.Sublist.refl []
  | cons e es ih =>
      rw [firsts_cons]
      exact (ih.trans List.filter_sublist).cons_cons e

/-- Of the edits of one start the first one is left. -/
theorem filter_firsts (es : List Edit) (n : Nat) :
    (firsts es).filter (Edit.startsAt n) = (es.filter (Edit.startsAt n)).take 1 := by
  induction es using firsts_induction with
  | nil => rfl
  | cons e es ih =>
      rw [List.filter_filter] at ih
      rw [firsts_cons, List.filter_cons, List.filter_cons]
      by_cases he : e.startsAt n = true
      · -- nothing that comes after it starts there
        obtain rfl := Edit.startsAt_iff.1 he
        rw [if_pos he, if_pos he, ih, List.filter_congr fun f _ => Bool.and_not_self _,
          List.filter_false, List.take_nil, List.take_succ_cons, List.take_zero]
      · rw [if_neg he, if_neg he, ih]
        congr 1
        apply List.filter_congr
        intro f _
        rw [Edit.startsAt_iff] at he
        rw [Bool.and_eq_left_iff_imp, Edit.startsAt_iff, Edit.not_startsAt_iff]
        rintro rfl hf
        exact he hf.symm

/-- Sorting and leaving out repeated starts can be exchanged. -/
theorem mergeSort_firsts (es : List Edit) :
    (firsts es).mergeSort startsBefore = firsts (es.mergeSort startsBefore) := by
  refine StablySorted.unique (stablySorted_mergeSort (firsts es)) ⟨.of_filter_eq fun n => ?_, ?_⟩
  · rw [filter_firsts, filter_firsts, (stablySorted_mergeSort es).filter_eq]
  · exact (mergeSort_startsBefore_pairwise es).sublist (firsts_sublist _)

/-- Edits that start at `n`, none of the others starting earlier, can be left out if they collide
with the last one kept. -/
theorem keepFrom_filter_not_startsAt
    (hlast : ∀ f : Edit, f.span.start = n → last.any (fun kept => kept.collides f) = true)
    (hes : es.Pairwise fun a b => a.span.start ≤ b.span.start) (hn : ∀ e ∈ es, n ≤ e.span.start) :
    keepFrom last (es.filter fun f => !f.startsAt n) = keepFrom last es := by
  induction es with
  | nil => rfl
  | cons e es ih =>
      by_cases he : e.span.start = n
      · have hstarts : ¬ (!e.startsAt n) = true := fun h => Edit.not_startsAt_iff.1 h he
        rw [List.filter_cons, if_neg hstarts, keepFrom, if_pos (hlast e he)]
        exact ih hes.of_cons fun f hf => hn f (List.mem_cons_of_mem e hf)
      · -- from here on all edits start after `n`
        have hlt : n < e.span.start := (hn e List.mem_cons_self).lt_of_ne (Ne.symm he)
        rw [List.filter_eq_self.2]
        intro f hf
        have hle := start_le_of_mem_cons hes hf
        rw [Edit.not_startsAt_iff]
        omega

/-- An edit that starts where an earlier one starts is not kept: it collides with the earlier one if
that is kept, and else with what the earlier one collided with. -/
theorem keepFrom_firsts (last : Option Edit)
    (hes : es.Pairwise fun a b => a.span.start ≤ b.span.start) :
    keepFrom last (firsts es) = keepFrom last es := by
  induction es using firsts_induction generalizing last with
  | nil => rfl
  | cons e es ih =>
      obtain ⟨hhead, htail⟩ := List.pairwise_cons.1 hes
      have hfirsts := fun last => ih last (htail.sublist List.filter_sublist)
      rw [firsts_cons, keepFrom, keepFrom]
      split
      · rename_i hcol
        rw [hfirsts, keepFrom_filter_not_startsAt _ htail hhead]
        intro f hf
        -- whether an edit collides depends on its start only
        cases last with
        | none => simp at hcol
        | some k =>
            rw [Option.any_some, Edit.collides_iff] at hcol ⊢
            rwa [hf]
      · rw [hfirsts, keepFrom_filter_not_startsAt _ htail hhead]
        intro f hf
        rw [Option.any_some, Edit.collides_iff]
        exact .inr hf

/-! ### The patch of a list -/

theorem ofList_firsts (es : List Edit) : ofList (firsts es) = ofList es := by
  rw [ofList, mergeSort_firsts, keepFrom_firsts none (mergeSort_startsBefore_pairwise es), ofList]

/-- The order in which edits are collected does not matter. Lists with the same edits, those of one
start in the same order, give the same patch and so the same text. An edit that starts where an
earlier one of the list starts changes nothing. -/
theorem ofList_reordered (es : List Edit) :
    (∀ fs, SameOrder es fs → ofList es = ofList fs ∧
      ∀ code, (ofList es).applied? code = (ofList fs).applied? code) ∧
    ofList (firsts es) = ofList es := by
  refine ⟨fun fs hfs => ?_, ofList_firsts es⟩
  have hpatch : ofList es = ofList fs := by rw [ofList, hfs.mergeSort_eq, ofList]
  refine ⟨hpatch, fun code => ?_⟩
  rw [hpatch]

/-- Two deletions, and an insertion where the second one starts. -/
def crowdedEdits : List Edit := [⟨⟨8, 11⟩, []⟩, ⟨⟨1, 2⟩, []⟩, ⟨⟨1, 1⟩, [' ']⟩]

/-- The same edits with the first one moved to the end. -/
def crowdedEditsMoved : List Edit := [⟨⟨1, 2⟩, []⟩, ⟨⟨1, 1⟩, [' ']⟩, ⟨⟨8, 11⟩, []⟩]

/-- The deletion that comes last in the text may come first or last in the list, and the insertion
is dropped. -/
theorem ofList_reordered_crowdedEdits :
    SameOrder crowdedEdits crowdedEditsMoved ∧
      ofList crowdedEdits = ofList crowdedEditsMoved ∧
      (∀ code, (ofList crowdedEdits).applied? code = (ofList crowdedEditsMoved).applied? code) ∧
      firsts crowdedEdits = [⟨⟨8, 11⟩, []⟩, ⟨⟨1, 2⟩, []⟩] ∧
      ofList [⟨⟨8, 11⟩, []⟩, ⟨⟨1, 2⟩, []⟩] = ofList crowdedEdits := by
  have horder : SameOrder crowdedEdits crowdedEditsMoved := by
    apply SameOrder.of_filter_eq
    intro n
    by_cases h : (8 == n) = true
    · obtain rfl := beq_iff_eq.1 h
      rfl
    · simp [crowdedEdits, crowdedEditsMoved, Edit.startsAt, List.filter_cons, h]
  have hfirsts : firsts crowdedEdits = [⟨⟨8, 11⟩, []⟩, ⟨⟨1, 2⟩, []⟩] := rfl
  obtain ⟨hpatch, happlied⟩ := (ofList_reordered crowdedEdits).1 crowdedEditsMoved horder
  refine ⟨horder, hpatch, happlied, hfirsts, ?_⟩
  rw [← hfirsts]
  exact (ofList_reordered crowdedEdits).2

end Patch

/-! ## Which edits a patch keeps

The edits are looked at in the order of their starts, and one is kept unless it collides with the
last one kept so far (`accept`). Looking at the last one is enough: of two kept edits the later one
starts after the start of the earlier one and not before its stop, however far apart they stand, and
every edit that is not kept collides with one that is kept and stands before it (`FirstWins`). This
holds of all spans, empty and inverted ones included, and of edits that come more than once, since
it is said of the places of a list and not of its members.

The main statement is `ofList_firstWins`.
-/

namespace Patch

variable {es kept : List Edit} {places : List Nat} {last : Option Edit} {e : Edit}

/-- One turn: an edit is put after those kept so far, unless it collides with the last of them. -/
def accept (kept : List Edit) (e : Edit) : List Edit :=
  if kept.getLast?.any fun last => last.collides e then kept else kept ++ [e]

/-- What is kept after one more edit has been looked at. -/
theorem keepFrom_concat (last : Option Edit) (es : List Edit) (e : Edit) :
    keepFrom last (es ++ [e]) =
      if ((keepFrom last es).getLast?.or last).any fun kept => kept.collides e then keepFrom last es
      else keepFrom last es ++ [e] := by
  induction es generalizing last with
  | nil =>
      rw [List.nil_append, keepFrom, keepFrom, List.getLast?_nil, Option.none_or, List.nil_append]
      rfl
  | cons f es ih =>
      rw [List.cons_append, keepFrom, keepFrom]
      split
      · exact ih last
      · -- the last one kept is the last of those kept after `f`, or `f` itself
        have hlast : (f :: keepFrom (some f) es).getLast?.or last =
            (keepFrom (some f) es).getLast?.or (some f) := by
          rw [List.getLast?_cons, Option.some_or, Option.or_some]
        rw [hlast, ih]
        split
        · rfl
        · rfl

/-- The kept edits are those that are left after a turn for each edit. -/
theorem keepFrom_eq_foldl (es : List Edit) : keepFrom none es = es.foldl accept [] := by
  induction es using List.reverseRecOn with
  | nil => rfl
  | append_singleton es e ih =>
      rw [keepFrom_concat, Option.or_none, ih, List.foldl_append]
      rfl

/-- The kept edits stand at the given places of the list, in the same order, and each edit at
another place collides with a kept one that stands before it. -/
structure FirstWins (es : List Edit) (places : List Nat) (kept : List Edit) : Prop where
  kept_eq : kept.map some = places.map fun i => es[i]?
  ordered : places.Pairwise (· < ·)
  dropped : ∀ j f, es[j]? = some f → j ∉ places → ∃ i k, i ∈ places ∧ i < j ∧ es[i]? = some k ∧
    (f.span.start < k.span.stop ∨ f.span.start = k.span.start)

theorem firstWins_nil : FirstWins [] [] [] where
  kept_eq := rfl
  ordered := List.Pairwise.nil
  dropped j f hf := by simp at hf

theorem FirstWins.exists_place (h : FirstWins es places kept) (he : e ∈ kept) :
    ∃ i ∈ places, es[i]? = some e := by
  have hmem : some e ∈ kept.map some := List.mem_map_of_mem he
  rw [h.kept_eq] at hmem
  exact List.mem_map.1 hmem

theorem FirstWins.place_lt (h : FirstWins es places kept) {i : Nat} (hi : i ∈ places) :
    i < es.length := by
  have hmem : es[i]? ∈ kept.map some := by
    rw [h.kept_eq]
    exact List.mem_map_of_mem hi
  obtain ⟨k, -, hk⟩ := List.mem_map.1 hmem
  exact (List.getElem?_eq_some_iff.1 hk.symm).1

/-- The places stay what they are when the list goes on. -/
theorem FirstWins.kept_eq_concat (h : FirstWins es places kept) (e : Edit) :
    kept.map some = places.map fun i => (es ++ [e])[i]? := by
  rw [h.kept_eq]
  apply List.map_congr_left
  intro i hi
  rw [List.getElem?_append_left (h.place_lt hi)]

/-- An edit of the longer list is the new one or stands where it stood. -/
theorem FirstWins.dropped_concat (h : FirstWins es places kept) {j : Nat} {f : Edit}
    (hf : (es ++ [e])[j]? = some f) (hj : j ∉ places) :
    (j = es.length ∧ f = e) ∨ ∃ i k, i ∈ places ∧ i < j ∧ (es ++ [e])[i]? = some k ∧
      (f.span.start < k.span.stop ∨ f.span.start = k.span.start) := by
  rcases Nat.lt_or_ge j es.length with hlt | hge
  · rw [List.getElem?_append_left hlt] at hf
    obtain ⟨i, k, hi, hij, hk, hcol⟩ := h.dropped j f hf hj
    exact .inr ⟨i, k, hi, hij, by rw [List.getElem?_append_left (h.place_lt hi), hk], hcol⟩
  · have hlt := (List.getElem?_eq_some_iff.1 hf).1
    obtain rfl : j = es.length := by
      rw [List.length_append, List.length_singleton] at hlt
      omega
    rw [List.getElem?_concat_length, Option.some.injEq] at hf
    exact .inl ⟨rfl, hf.symm⟩

/-- One turn keeps the invariant: if the new edit is dropped, the last kept one stands before it and
collides with it. -/
theorem FirstWins.accept (h : FirstWins es places kept) (e : Edit) :
    ∃ places, FirstWins (es ++ [e]) places (accept kept e) := by
  unfold Patch.accept
  split
  · rename_i hcol
    cases hlast : kept.getLast? with
    | none =>
        rw [hlast, Option.any_none] at hcol
        cases hcol
    | some k =>
        rw [hlast, Option.any_some, Edit.collides_iff] at hcol
        obtain ⟨i, hi, hk⟩ := h.exists_place (List.mem_of_getLast? hlast)
        have hk' : (es ++ [e])[i]? = some k := by
          rw [List.getElem?_append_left (h.place_lt hi), hk]
        refine ⟨places, h.kept_eq_concat e, h.ordered, ?_⟩
        intro j f hf hj
        rcases h.dropped_concat hf hj with ⟨rfl, rfl⟩ | hdropped
        · exact ⟨i, k, hi, h.place_lt hi, hk', hcol⟩
        · exact hdropped
  · refine ⟨places ++ [es.length], ?_, ?_, ?_⟩
    · rw [List.map_append, List.map_append, h.kept_eq_concat e, List.map_singleton,
        List.map_singleton, List.getElem?_concat_length]
    · rw [List.pairwise_append]
      refine ⟨h.ordered, List.pairwise_singleton _ _, ?_⟩
      intro i hi j hj
      rw [List.mem_singleton.1 hj]
      exact h.place_lt hi
    · intro j f hf hj
      rw [List.mem_append, not_or, List.mem_singleton] at hj
      rcases h.dropped_concat hf hj.1 with ⟨heq, -⟩ | ⟨i, k, hi, hij, hk, hcol⟩
      · exact absurd heq hj.2
      · exact ⟨i, k, List.mem_append_left _ hi, hij, hk, hcol⟩

/-- A turn for each edit keeps the invariant. -/
theorem exists_firstWins (es : List Edit) : ∃ places, FirstWins es places (keepFrom none es) := by
  rw [keepFrom_eq_foldl]
  induction es using List.reverseRecOn with
  | nil => exact ⟨[], firstWins_nil⟩
  | append_singleton es e ih =>
      obtain ⟨places, h⟩ := ih
      rw [List.foldl_append, List.foldl_cons, List.foldl_nil]
      exact h.accept e

/-- No two kept edits collide, and none of the dropped ones could be kept besides them: the first
wins. The edits are sorted stably by their starts, and of these the kept ones are left. Of any two
kept edits the later one starts after the start of the earlier one and not before its stop; every
dropped edit starts before the stop of a kept one that stands before it, or at its start. Of kept
edits, all are kept again. -/
theorem ofList_firstWins (es : List Edit) :
    StablySorted es (es.mergeSort startsBefore) ∧
      (ofList es).edits.Sublist (es.mergeSort startsBefore) ∧
      ((ofList es).edits.Pairwise fun a b =>
        a.span.start < b.span.start ∧ a.span.stop ≤ b.span.start) ∧
      (∃ places, FirstWins (es.mergeSort startsBefore) places (ofList es).edits) ∧
      ofList (ofList es).edits = ofList es := by
  refine ⟨stablySorted_mergeSort es, keepFrom_sublist none _, ofList_pairwise es,
    exists_firstWins _, ?_⟩
  rw [ofList_eq_mk (ofList_pairwise es)]

/-- Nothing collides with an inverted span but what starts where it starts. -/
example :
    (ofList [⟨⟨6, 2⟩, ['x']⟩, ⟨⟨6, 8⟩, []⟩, ⟨⟨1, 4⟩, []⟩, ⟨⟨2, 3⟩, []⟩, ⟨⟨7, 9⟩, []⟩]).edits =
      [⟨⟨1, 4⟩, []⟩, ⟨⟨6, 2⟩, ['x']⟩, ⟨⟨7, 9⟩, []⟩] := by cbv

end Patch

end ParenGap
