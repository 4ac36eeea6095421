import Mathlib.Tactic
import ParenGap.Edit
import ParenGap.Proofs.Text.Slice

/-!
# The text that a patch gives

A patch made from a list keeps an edit of every group of edits that collide; where edits that are
not equal lie apart, it keeps exactly the edits of the list (`SetApart.mem_ofList_iff`).

`splice?` applies edits to a stretch of a text. Splices of neighbouring stretches join
(`splice?_append`), and a splice is longer than its stretch by what its edits add
(`byteLength_splice?`). Edits that are in order in a text can be applied to it (`exists_applied?`).
-/

set_option autoImplicit false

namespace ParenGap

/-- What an edit adds to the length of a text; it is negative where it takes away more than it puts
in. -/
def Edit.growth (e : Edit) : Int := (Text.byteLength e.replacement : Int) - e.span.length

/-- What edits add to the length of a text together. -/
def Edit.totalGrowth (es : List Edit) : Int := (es.map Edit.growth).sum

namespace Edit

@[simp] theorem totalGrowth_nil : totalGrowth [] = 0 := rfl

@[simp] theorem totalGrowth_cons (e : Edit) (es : List Edit) :
    totalGrowth (e :: es) = e.growth + totalGrowth es := by
  rw [totalGrowth, List.map_cons, List.sum_cons]
  rfl

@[simp] theorem totalGrowth_append (es fs : List Edit) :
    totalGrowth (es ++ fs) = totalGrowth es + totalGrowth fs := by
  rw [totalGrowth, List.map_append, List.sum_append]
  rfl

end Edit

namespace Patch

open Text

/-! ## The edits that are kept -/

section Kept

variable {last : Option Edit} {es : List Edit} {e f : Edit}

theorem keepFrom_sublist (last : Option Edit) (es : List Edit) : (keepFrom last es).Sublist es := by
  induction es generalizing last with
  | nil => exact List.Sublist.refl []
  | cons e es ih =>
      rw [keepFrom]
      split
      · exact (ih last).cons e
      · exact (ih (some e)).cons_cons e

/-- A dropped edit collides with a kept one that starts no later. -/
theorem mem_keepFrom_or_collides (h : es.Pairwise fun a b => a.span.start ≤ b.span.start)
    (hlast : ∀ k, last = some k → ∀ e ∈ es, k.span.start ≤ e.span.start) (he : e ∈ es) :
    e ∈ keepFrom last es ∨
      ∃ k, (last = some k ∨ k ∈ keepFrom last es) ∧ k.collides e = true ∧
        k.span.start ≤ e.span.start := by
  induction es generalizing last with
  | nil => simp at he
  | cons f es ih =>
      obtain ⟨hhead, htail⟩ := List.pairwise_cons.1 h
      rw [keepFrom]
      rcases List.mem_cons.1 he with rfl | hmem
      · -- the edit is looked at next: it is kept unless it collides with the last one
        split
        · rename_i hcol
          cases last with
          | none => simp at hcol
          | some k =>
              rw [Option.any_some] at hcol
              exact Or.inr ⟨k, Or.inl rfl, hcol, hlast k rfl e he⟩
        · exact Or.inl List.mem_cons_self
      · -- the edit comes later: the last kept edit is the old one or the one looked at
        split
        · exact ih htail (fun k hk g hg => hlast k hk g (List.mem_cons_of_mem _ hg)) hmem
        · have hnext : ∀ k, some f = some k → ∀ g ∈ es, k.span.start ≤ g.span.start := by
            rintro k hk g hg
            rw [Option.some.injEq] at hk
            exact hk ▸ hhead g hg
          rcases ih htail hnext hmem with hkept | ⟨k, hk | hk, hcol, hle⟩
          · exact Or.inl (List.mem_cons_of_mem _ hkept)
          · rw [Option.some.injEq] at hk
            exact Or.inr ⟨k, Or.inr (hk ▸ List.mem_cons_self), hcol, hle⟩
          · exact Or.inr ⟨k, Or.inr (List.mem_cons_of_mem _ hk), hcol, hle⟩

/-- Of two kept edits the later one starts after the start of the earlier one, and not before its
stop. -/
theorem keepFrom_pairwise (h : es.Pairwise fun a b => a.span.start ≤ b.span.start)
    (hlast : ∀ k, last = some k → ∀ e ∈ es, k.span.start ≤ e.span.start) :
    (keepFrom last es).Pairwise (fun a b => a.span.start < b.span.start ∧
        a.span.stop ≤ b.span.start) ∧
      ∀ k, last = some k → ∀ e ∈ keepFrom last es,
        k.span.start < e.span.start ∧ k.span.stop ≤ e.span.start := by
  -- the second part carries the induction: what is kept later lies after the last kept edit
  induction es generalizing last with
  | nil => simp [keepFrom]
  | cons e es ih =>
      obtain ⟨hhead, htail⟩ := List.pairwise_cons.1 h
      rw [keepFrom]
      split
      · exact ih htail fun k hk f hf => hlast k hk f (List.mem_cons_of_mem _ hf)
      · rename_i hcol
        have hnext : ∀ k, some e = some k → ∀ f ∈ es, k.span.start ≤ f.span.start := by
          intro k hk f hf
          rw [Option.some.injEq] at hk
          exact hk ▸ hhead f hf
        obtain ⟨hpair, hafter⟩ := ih htail hnext
        refine ⟨List.pairwise_cons.2 ⟨hafter e rfl, hpair⟩, ?_⟩
        rintro k rfl f hf
        have hke : k.span.start < e.span.start ∧ k.span.stop ≤ e.span.start := by
          have hle := hlast k rfl e List.mem_cons_self
          rw [Option.any_some, Edit.collides_iff] at hcol
          omega
        rcases List.mem_cons.1 hf with rfl | hf
        · exact hke
        · have hef := hafter e rfl f hf
          omega

theorem startsBefore_trans (a b c : Edit) (hab : startsBefore a b = true)
    (hbc : startsBefore b c = true) : startsBefore a c = true := by
  simp only [startsBefore, decide_eq_true_eq] at *
  omega

theorem startsBefore_total (a b : Edit) : (startsBefore a b || startsBefore b a) = true := by
  simp only [startsBefore, Bool.or_eq_true, decide_eq_true_eq]
  omega

theorem mergeSort_startsBefore_pairwise (es : List Edit) :
    (es.mergeSort startsBefore).Pairwise fun a b => a.span.start ≤ b.span.start :=
  (List.pairwise_mergeSort startsBefore_trans startsBefore_total es).imp fun hab => by
    simpa [startsBefore] using hab

theorem ofList_pairwise (es : List Edit) :
    (ofList es).edits.Pairwise fun a b =>
      a.span.start < b.span.start ∧ a.span.stop ≤ b.span.start :=
  (keepFrom_pairwise (mergeSort_startsBefore_pairwise es) fun k hk => by cases hk).1

/-- Of edits in order that do not collide, none is dropped. -/
theorem keepFrom_eq_self
    (h : es.Pairwise fun a b => a.span.start < b.span.start ∧ a.span.stop ≤ b.span.start)
    (hlast : ∀ k, last = some k →
      ∀ e ∈ es, k.span.start < e.span.start ∧ k.span.stop ≤ e.span.start) :
    keepFrom last es = es := by
  induction es generalizing last with
  | nil => rfl
  | cons e es ih =>
      obtain ⟨hhead, htail⟩ := List.pairwise_cons.1 h
      have hfree : ¬ (last.any fun kept => kept.collides e) = true := by
        cases last with
        | none => simp
        | some k =>
            have hke := hlast k rfl e List.mem_cons_self
            rw [Option.any_some, Edit.collides_iff]
            omega
      rw [keepFrom, if_neg hfree, ih htail fun k hk => Option.some.inj hk ▸ hhead]

/-- Edits in order that do not collide are a patch as they stand. -/
theorem ofList_eq_mk
    (h : es.Pairwise fun a b => a.span.start < b.span.start ∧ a.span.stop ≤ b.span.start) :
    ofList es = ⟨es⟩ := by
  have hsorted : es.mergeSort startsBefore = es := by
    apply List.mergeSort_of_pairwise
    exact h.imp fun hab => decide_eq_true hab.1.le
  rw [ofList, hsorted, keepFrom_eq_self h fun k hk => by cases hk]

theorem mem_of_mem_ofList (h : e ∈ (ofList es).edits) : e ∈ es := by
  have hmem := (keepFrom_sublist none (es.mergeSort startsBefore)).mem h
  simpa using hmem

/-- Every edit is in order, and edits that are not equal lie apart. -/
structure SetApart (es : List Edit) : Prop where
  start_le_stop : ∀ e ∈ es, e.span.start ≤ e.span.stop
  apart : ∀ e ∈ es, ∀ f ∈ es, e = f ∨ e.span.stop < f.span.start ∨ f.span.stop < e.span.start

theorem SetApart.subset {fs : List Edit} (h : SetApart es) (hsub : fs ⊆ es) : SetApart fs where
  start_le_stop e he := h.start_le_stop e (hsub he)
  apart e he f hf := h.apart e (hsub he) f (hsub hf)

/-- Edits that lie apart are all kept. -/
theorem SetApart.mem_ofList_iff (h : SetApart es) : e ∈ (ofList es).edits ↔ e ∈ es := by
  refine ⟨mem_of_mem_ofList, fun he => ?_⟩
  have hsorted : e ∈ es.mergeSort startsBefore := by simpa using he
  have hnone : ∀ k : Edit, none = some k → ∀ f ∈ es.mergeSort startsBefore,
      k.span.start ≤ f.span.start := by
    intro k hk
    cases hk
  rcases mem_keepFrom_or_collides (mergeSort_startsBefore_pairwise es) hnone hsorted with
    hkept | ⟨k, hk | hk, hcol, hstart⟩
  · exact hkept
  · cases hk
  · -- the two collide, so that they are equal
    have hk' : k ∈ es := mem_of_mem_ofList hk
    have hle := h.start_le_stop k hk'
    have hle' := h.start_le_stop e he
    rw [Edit.collides_iff] at hcol
    rcases h.apart k hk' e he with rfl | hlt | hlt
    · exact hk
    · omega
    · omega

/-- Edits that lie apart are kept one after the other, with something left between any two. -/
theorem SetApart.ofList_pairwise_lt (h : SetApart es) :
    (ofList es).edits.Pairwise fun a b => a.span.stop < b.span.start := by
  refine (ofList_pairwise es).imp_of_mem fun {a b} ha hb hab => ?_
  have hle := h.start_le_stop b (mem_of_mem_ofList hb)
  rcases h.apart a (mem_of_mem_ofList ha) b (mem_of_mem_ofList hb) with rfl | hlt | hlt
  · omega
  · exact hlt
  · omega

/-- Edits that lie apart make the same patch in any order, however often each of them comes. -/
theorem SetApart.ofList_eq_of_mem_iff {fs : List Edit} (h : SetApart es)
    (hmem : ∀ e, e ∈ fs ↔ e ∈ es) : ofList fs = ofList es := by
  have h' : SetApart fs := h.subset fun e he => (hmem e).1 he
  have hstarts : ∀ gs : List Edit,
      (ofList gs).edits.Pairwise fun a b => a.span.start < b.span.start :=
    fun gs => (ofList_pairwise gs).imp And.left
  have hnodup : ∀ gs : List Edit, (ofList gs).edits.Nodup := by
    intro gs
    refine (hstarts gs).imp fun {a b} hab heq => ?_
    rw [heq] at hab
    exact lt_irrefl _ hab
  have hperm : (ofList fs).edits.Perm (ofList es).edits := by
    apply (List.perm_ext_iff_of_nodup (hnodup fs) (hnodup es)).2
    intro e
    rw [h'.mem_ofList_iff, h.mem_ofList_iff, hmem]
  -- two lists with strictly rising starts and the same elements are equal
  have hedits : (ofList fs).edits = (ofList es).edits := by
    apply List.Perm.eq_of_pairwise _ (hstarts fs) (hstarts es) hperm
    intro a b _ _ hab hba
    exact absurd hba hab.asymm
  exact congrArg Patch.mk hedits

end Kept

/-! ## Splices -/

/-- The text from `start` up to `stop` with the edits applied that lie in between. -/
def splice? (code : List Char) (start stop : Nat) : List Edit → Option (List Char)
  | [] => slice? code start stop
  | e :: es =>
      (slice? code start e.span.start).bind fun kept =>
        (splice? code e.span.stop stop es).map fun rest => kept ++ e.replacement ++ rest

section Splices

variable {code out t u : List Char} {m n k : Nat} {es fs : List Edit} {e : Edit}

theorem splice?_cons_eq_some_iff :
    splice? code m n (e :: es) = some out ↔ ∃ kept rest, slice? code m e.span.start = some kept ∧
      splice? code e.span.stop n es = some rest ∧ out = kept ++ (e.replacement ++ rest) := by
  rw [splice?]
  simp only [Option.bind_eq_some_iff, Option.map_eq_some_iff, List.append_assoc]
  constructor
  · rintro ⟨kept, hkept, rest, hrest, rfl⟩
    exact ⟨kept, rest, hkept, hrest, rfl⟩
  · rintro ⟨kept, rest, hkept, hrest, rfl⟩
    exact ⟨kept, hkept, rest, hrest, rfl⟩

/-- Applying edits is splicing up to the end of the text. -/
theorem appliedFrom?_eq_splice? (code : List Char) (m : Nat) (es : List Edit) :
    appliedFrom? code m es = splice? code m (byteLength code) es := by
  induction es generalizing m with
  | nil =>
      ext rest
      simp only [appliedFrom?, splice?, Option.map_eq_some_iff, Prod.exists, cut?_eq_some_iff,
        slice?_eq_some_iff]
      constructor
      · rintro ⟨before, after, ⟨rfl, rfl⟩, rfl⟩
        exact ⟨before, [], by simp, rfl, by simp⟩
      · rintro ⟨before, after, rfl, rfl, hlen⟩
        obtain rfl : after = [] := byteLength_eq_zero_iff.1 (by simp at hlen; omega)
        exact ⟨before, rest, ⟨by simp, rfl⟩, rfl⟩
  | cons e es ih => rw [appliedFrom?, splice?, ih]

/-- Splices of neighbouring stretches join. -/
theorem splice?_append (h : splice? code m n es = some t) (h' : splice? code n k fs = some u) :
    splice? code m k (es ++ fs) = some (t ++ u) := by
  induction es generalizing m t with
  | nil =>
      rw [splice?] at h
      rw [List.nil_append]
      cases fs with
      | nil => exact slice?_append h h'
      | cons f fs =>
          obtain ⟨kept, rest, hkept, hrest, rfl⟩ := splice?_cons_eq_some_iff.1 h'
          exact splice?_cons_eq_some_iff.2
            ⟨t ++ kept, rest, slice?_append h hkept, hrest, by simp⟩
  | cons e es ih =>
      obtain ⟨kept, rest, hkept, hrest, rfl⟩ := splice?_cons_eq_some_iff.1 h
      exact splice?_cons_eq_some_iff.2 ⟨kept, rest ++ u, hkept, ih hrest, by simp⟩

/-- Edits are in order in a text: each one lies between two places, and none starts before an
earlier one has stopped. -/
structure InOrder (code : List Char) (es : List Edit) : Prop where
  start_le_stop : ∀ e ∈ es, e.span.start ≤ e.span.stop
  places : ∀ e ∈ es, IsPlace code e.span.start ∧ IsPlace code e.span.stop
  ordered : es.Pairwise fun a b => a.span.stop ≤ b.span.start

theorem InOrder.sublist (h : InOrder code es) (hsub : fs.Sublist es) : InOrder code fs where
  start_le_stop e he := h.start_le_stop e (hsub.mem he)
  places e he := h.places e (hsub.mem he)
  ordered := h.ordered.sublist hsub

/-- Edits in order that lie between two places can be spliced. -/
theorem InOrder.exists_splice? (h : InOrder code es) (hm : IsPlace code m) (hn : IsPlace code n)
    (hle : m ≤ n) (hes : ∀ e ∈ es, m ≤ e.span.start ∧ e.span.stop ≤ n) :
    ∃ out, splice? code m n es = some out := by
  induction es generalizing m with
  | nil => exact hm.exists_slice? hn hle
  | cons e es ih =>
      obtain ⟨hstart, hstop⟩ := hes e List.mem_cons_self
      obtain ⟨hplace, hplace'⟩ := h.places e List.mem_cons_self
      obtain ⟨hhead, -⟩ := List.pairwise_cons.1 h.ordered
      obtain ⟨kept, hkept⟩ := hm.exists_slice? hplace hstart
      obtain ⟨rest, hrest⟩ := ih (h.sublist (List.sublist_cons_self e es)) hplace' hstop
        fun f hf => ⟨hhead f hf, (hes f (List.mem_cons_of_mem _ hf)).2⟩
      exact ⟨_, splice?_cons_eq_some_iff.2 ⟨kept, rest, hkept, hrest, rfl⟩⟩

theorem le_of_splice? (h : splice? code m n es = some out)
    (hes : ∀ e ∈ es, e.span.start ≤ e.span.stop) : m ≤ n := by
  induction es generalizing m out with
  | nil =>
      have := add_byteLength_of_slice? h
      omega
  | cons e es ih =>
      obtain ⟨kept, rest, hkept, hrest, -⟩ := splice?_cons_eq_some_iff.1 h
      have hlen := add_byteLength_of_slice? hkept
      have hle := hes e List.mem_cons_self
      have := ih hrest fun f hf => hes f (List.mem_cons_of_mem _ hf)
      omega

/-- A splice is longer than its stretch by what the edits add. -/
theorem byteLength_splice? (h : splice? code m n es = some out)
    (hes : ∀ e ∈ es, e.span.start ≤ e.span.stop) :
    (byteLength out : Int) = n - m + Edit.totalGrowth es := by
  induction es generalizing m out with
  | nil =>
      have hlen := add_byteLength_of_slice? h
      rw [Edit.totalGrowth_nil]
      omega
  | cons e es ih =>
      obtain ⟨kept, rest, hkept, hrest, rfl⟩ := splice?_cons_eq_some_iff.1 h
      have hlen := add_byteLength_of_slice? hkept
      have hlen' := ih hrest fun f hf => hes f (List.mem_cons_of_mem _ hf)
      have hle := hes e List.mem_cons_self
      simp only [byteLength_append, Edit.totalGrowth_cons, Edit.growth, Span.length]
      omega

/-- The stretch and the splice from one edit on: both start with what stands before the edit; then
come the text in its span and the rest, or its replacement and the splice of the rest. -/
theorem exists_parts_of_splice?_cons (h : splice? code m n (e :: es) = some out)
    (ht : slice? code m n = some t) (hu : slice? code e.span.start e.span.stop = some u)
    (hle : ∀ f ∈ es, f.span.start ≤ f.span.stop) :
    ∃ kept tail rest, slice? code m e.span.start = some kept ∧
      slice? code e.span.stop n = some tail ∧ splice? code e.span.stop n es = some rest ∧
      t = kept ++ (u ++ tail) ∧ out = kept ++ (e.replacement ++ rest) := by
  obtain ⟨kept, rest, hkept, hrest, hout⟩ := splice?_cons_eq_some_iff.1 h
  obtain ⟨tail, htail⟩ := (isPlace_of_slice? hu).2.exists_slice? (isPlace_of_slice? ht).2
    (le_of_splice? hrest hle)
  have hparts := slice?_append hkept (slice?_append hu htail)
  rw [ht, Option.some.injEq] at hparts
  exact ⟨kept, tail, rest, hkept, htail, hrest, hparts, hout⟩

/-- Edits that change nothing as seen through a test on characters leave the whole splice as it was,
seen so. -/
theorem filter_splice? {p : Char → Bool} (h : splice? code m n es = some out)
    (ht : slice? code m n = some t) (hle : ∀ e ∈ es, e.span.start ≤ e.span.stop)
    (hes : ∀ e ∈ es, ∃ text, slice? code e.span.start e.span.stop = some text ∧
      text.filter p = e.replacement.filter p) : out.filter p = t.filter p := by
  induction es generalizing m out t with
  | nil =>
      rw [splice?, ht, Option.some.injEq] at h
      rw [h]
  | cons e es ih =>
      rw [List.forall_mem_cons] at hle hes
      obtain ⟨text, htext, hfilter⟩ := hes.1
      obtain ⟨kept, tail, rest, -, htail, hrest, rfl, rfl⟩ :=
        exists_parts_of_splice?_cons h ht htext hle.2
      simp only [List.filter_append, hfilter, ih hrest htail hle.2 hes.2]

end Splices

section Applied

variable {p : Patch} {code out : List Char}

theorem applied?_eq_splice? (p : Patch) (code : List Char) :
    p.applied? code = splice? code 0 (byteLength code) p.edits :=
  appliedFrom?_eq_splice? code 0 p.edits

/-- A patch whose edits are in order in a text can be applied to it. -/
theorem exists_applied? (h : InOrder code p.edits) : ∃ out, p.applied? code = some out := by
  rw [applied?_eq_splice?]
  exact h.exists_splice? (.zero code) (.last code) (Nat.zero_le _)
    fun e he => ⟨Nat.zero_le _, (h.places e he).2.le_byteLength⟩

theorem byteLength_applied? (h : InOrder code p.edits) (hout : p.applied? code = some out) :
    (byteLength out : Int) = byteLength code + Edit.totalGrowth p.edits := by
  rw [applied?_eq_splice?] at hout
  have := byteLength_splice? hout h.start_le_stop
  omega

/-- Edits that change nothing as seen through a test on characters leave the text as it was, seen
so. -/
theorem filter_applied? {q : Char → Bool} (h : InOrder code p.edits)
    (hout : p.applied? code = some out)
    (hsame : ∀ e ∈ p.edits, ∃ text, slice? code e.span.start e.span.stop = some text ∧
      text.filter q = e.replacement.filter q) : out.filter q = code.filter q := by
  rw [applied?_eq_splice?] at hout
  exact filter_splice? hout (slice?_zero_byteLength code) h.start_le_stop hsame

end Applied

end Patch

end ParenGap
