import Mathlib.Tactic
import ParenGap.Proofs.Token.Pairing
import ParenGap.Token

/-!
# The matching of parentheses

The partner of an opening parenthesis is said by counting: it is the first token after it up to
which more parentheses are closed than opened (`Pairing.Pair`). That is a closing parenthesis with
balanced tokens in between (`Pair.of_split`, `Pair.exists_split`).

The pairing finds these pairs and no others, whatever the tokens are (`partner?_eq_some_iff`). What
waits on its stack has as many openings after it that are still open as stand above it, and only
pairs are written to the slots (`Reached`); each token keeps this up. So partners are mutual, pairs
do not cross, the parentheses inside of a pair have their partners there, and an opening parenthesis
without a partner stands after every closing one without (`partner?_balancedMatching`).
-/

set_option autoImplicit false

namespace ParenGap

namespace Pairing

/-- The tokens after token `i` up to token `j`. -/
def upTo (ts : List Token) (i j : Nat) : List Token := (ts.drop (i + 1)).take (j - i)

/-- More parentheses are closed than opened. -/
def Overcloses (ts : List Token) : Prop := ts.countP Token.opens < ts.countP Token.closes

/-- Token `i` opens a parenthesis that token `j` closes: `j` is the least index above `i` up to
which more parentheses are closed than opened after token `i`. -/
structure Pair (ts : List Token) (i j : Nat) : Prop where
  lt : i < j
  opens : ∃ t, ts[i]? = some t ∧ t.opens = true
  closes : ∃ t, ts[j]? = some t ∧ t.closes = true
  overcloses : Overcloses (upTo ts i j)
  least : ∀ k, i < k → k < j → ¬ Overcloses (upTo ts i k)

/-! ## Depths and counts -/

section Depth

variable {d e k : Nat} {t : Token} {ts us : List Token}

/-- A depth is there if no beginning of the tokens closes more than is open, and it is the number of
parentheses that are left open. -/
theorem depth?_eq_some_iff : depth? d ts = some e ↔
    (∀ us, us <+: ts → us.countP Token.closes ≤ d + us.countP Token.opens) ∧
      e + ts.countP Token.closes = d + ts.countP Token.opens := by
  induction ts generalizing d with
  | nil =>
      simp only [depth?, Option.some.injEq, List.prefix_nil, forall_eq, List.countP_nil,
        Nat.add_zero, Nat.zero_le, true_and]
      exact eq_comm
  | cons t ts ih =>
      -- the beginnings are the empty one, and `t` before a beginning of the others
      simp only [List.prefix_cons_iff, forall_eq_or_imp, List.countP_nil, Nat.zero_le, true_and,
        forall_exists_index, and_imp]
      by_cases ho : t.opens = true
      · have hc : ¬ t.closes = true := fun hc => Token.not_opens_of_closes hc ho
        rw [depth?_cons_of_opens ho, ih]
        simp only [List.countP_cons_of_pos ho, List.countP_cons_of_neg hc]
        grind
      by_cases hc : t.closes = true
      · simp only [List.countP_cons_of_neg ho, List.countP_cons_of_pos hc]
        cases d with
        | zero =>
            rw [depth?_zero_cons_of_closes ho hc]
            constructor
            · intro hnone
              cases hnone
            · rintro ⟨hcount, -⟩
              have hnil := hcount _ [] rfl List.nil_prefix
              simp [List.countP_cons_of_pos hc, List.countP_cons_of_neg ho] at hnil
        | succ d =>
            rw [depth?_succ_cons_of_closes ho hc, ih]
            grind
      · rw [depth?_cons_of_other ho hc, ih]
        simp only [List.countP_cons_of_neg ho, List.countP_cons_of_neg hc]
        grind

/-- Depths count up from what is open before. -/
theorem depth?_add (h : depth? d ts = some e) (k : Nat) : depth? (d + k) ts = some (e + k) := by
  rw [depth?_eq_some_iff] at h ⊢
  refine ⟨fun us hus => ?_, by omega⟩
  have := h.1 us hus
  omega

theorem depth?_snoc_of_opens (h : depth? d ts = some e) (ht : t.opens = true) :
    depth? d (ts ++ [t]) = some (e + 1) := by
  rw [depth?_append, h, Option.bind_some, depth?_cons_of_opens ht, depth?]

theorem depth?_snoc_of_closes (h : depth? d ts = some (e + 1)) (ht : t.closes = true) :
    depth? d (ts ++ [t]) = some e := by
  rw [depth?_append, h, Option.bind_some,
    depth?_succ_cons_of_closes (Token.not_opens_of_closes ht) ht, depth?]

theorem depth?_snoc_of_other (h : depth? d ts = some e) (ho : ¬ t.opens = true)
    (hc : ¬ t.closes = true) : depth? d (ts ++ [t]) = some e := by
  rw [depth?_append, h, Option.bind_some, depth?_cons_of_other ho hc, depth?]

/-- Tokens that close too much have a first closing parenthesis that does: what stands before it is
balanced. -/
theorem exists_closing_of_depth?_eq_none (h : depth? 0 ts = none) :
    ∃ between closing after, ts = between ++ closing :: after ∧ closing.closes = true ∧
      Balanced between := by
  induction ts using List.reverseRecOn with
  | nil => cases h
  | append_singleton ts t ih =>
      cases hts : depth? 0 ts with
      | none =>
          obtain ⟨between, closing, after, rfl, hc, hbetween⟩ := ih hts
          exact ⟨between, closing, after ++ [t], by simp, hc, hbetween⟩
      | some e =>
          -- the last token is the first one that closes too much
          by_cases ho : t.opens = true
          · rw [depth?_snoc_of_opens hts ho] at h
            cases h
          by_cases hc : t.closes = true
          · cases e with
            | zero => exact ⟨ts, t, [], rfl, hc, hts⟩
            | succ e =>
                rw [depth?_snoc_of_closes hts hc] at h
                cases h
          · rw [depth?_snoc_of_other hts ho hc] at h
            cases h

/-- Each parenthesis that is left open has been opened: the one with `k` of them after it stands
before tokens that leave `k` open. -/
theorem exists_opening_of_depth? (h : depth? 0 ts = some d) (hk : k < d) :
    ∃ before opening after, ts = before ++ opening :: after ∧ opening.opens = true ∧
      depth? 0 after = some k := by
  induction ts using List.reverseRecOn generalizing d k with
  | nil =>
      obtain rfl : 0 = d := Option.some.inj h
      omega
  | append_singleton ts t ih =>
      cases hts : depth? 0 ts with
      | none =>
          rw [depth?_append, hts] at h
          cases h
      | some e =>
          by_cases ho : t.opens = true
          · rw [depth?_snoc_of_opens hts ho, Option.some.injEq] at h
            cases k with
            | zero => exact ⟨ts, t, [], rfl, ho, rfl⟩
            | succ k =>
                obtain ⟨before, opening, after, rfl, hopens, hafter⟩ := ih hts (k := k) (by omega)
                exact ⟨before, opening, after ++ [t], by simp, hopens,
                  depth?_snoc_of_opens hafter ho⟩
          by_cases hc : t.closes = true
          · cases e with
            | zero =>
                rw [depth?_append, hts, Option.bind_some,
                  depth?_zero_cons_of_closes ho hc] at h
                cases h
            | succ e =>
                rw [depth?_snoc_of_closes hts hc, Option.some.injEq] at h
                obtain ⟨before, opening, after, rfl, hopens, hafter⟩ :=
                  ih hts (k := k + 1) (by omega)
                exact ⟨before, opening, after ++ [t], by simp, hopens,
                  depth?_snoc_of_closes hafter hc⟩
          · rw [depth?_snoc_of_other hts ho hc, Option.some.injEq] at h
            obtain ⟨before, opening, after, rfl, hopens, hafter⟩ := ih hts (k := k) (by omega)
            exact ⟨before, opening, after ++ [t], by simp, hopens,
              depth?_snoc_of_other hafter ho hc⟩

/-- Balanced tokens, as counts: no beginning closes too much, and all that is opened is closed. -/
theorem balanced_iff : Balanced ts ↔ (∀ us, us <+: ts → ¬ Overcloses us) ∧
    ts.countP Token.closes = ts.countP Token.opens := by
  rw [Balanced, depth?_eq_some_iff]
  simp only [Overcloses, Nat.zero_add, Nat.not_lt]

end Depth

/-! ## Pairs -/

section Pairs

variable {i j k l : Nat} {t u opening closing : Token} {ts us before between after : List Token}

theorem upTo_of_split (h : ts = before ++ opening :: after) :
    upTo ts before.length k = after.take (k - before.length) := by
  rw [upTo, h, List.drop_append, List.drop_eq_nil_of_le (Nat.le_succ _), List.nil_append,
    Nat.add_sub_cancel_left]
  rfl

theorem upTo_closing (h : ts = before ++ opening :: (between ++ closing :: after)) :
    upTo ts before.length (before.length + 1 + between.length) = between ++ [closing] := by
  have htake : before.length + 1 + between.length - before.length = between.length + 1 := by omega
  rw [upTo_of_split h, htake, List.take_append, List.take_of_length_le (Nat.le_succ _),
    Nat.add_sub_cancel_left]
  rfl

theorem overcloses_snoc_iff (hc : closing.closes = true) : Overcloses (between ++ [closing]) ↔
    between.countP Token.opens ≤ between.countP Token.closes := by
  rw [Overcloses, List.countP_append, List.countP_append, List.countP_cons_of_pos hc,
    List.countP_cons_of_neg (Token.not_opens_of_closes hc), List.countP_nil, List.countP_nil,
    Nat.add_zero, Nat.zero_add, Nat.lt_succ_iff]

/-- What is around balanced tokens is a pair. -/
theorem Pair.of_split (h : ts = before ++ opening :: (between ++ closing :: after))
    (ho : opening.opens = true) (hc : closing.closes = true) (hbetween : Balanced between)
    (hi : before.length = i) (hj : before.length + 1 + between.length = j) : Pair ts i j := by
  subst hi hj
  rw [balanced_iff] at hbetween
  have hafter : ts = (before ++ opening :: between) ++ closing :: after := by simp [h]
  have hlength : (before ++ opening :: between).length = before.length + 1 + between.length := by
    rw [List.length_append, List.length_cons]
    omega
  refine ⟨by omega, ⟨opening, by simp [h], ho⟩, ⟨closing, ?_, hc⟩, ?_, fun k hk hk' => ?_⟩
  · rw [← hlength, hafter]
    simp
  · rw [upTo_closing h, overcloses_snoc_iff hc]
    exact hbetween.2.ge
  · rw [upTo_of_split h, List.take_append_of_le_length (by omega)]
    exact hbetween.1 _ (List.take_prefix _ _)

/-- A token stands between those before it and those after it. -/
theorem exists_split_of_getElem? (h : ts[i]? = some t) :
    ∃ before after, ts = before ++ t :: after ∧ before.length = i := by
  obtain ⟨hi, rfl⟩ := List.getElem?_eq_some_iff.1 h
  refine ⟨ts.take i, ts.drop (i + 1), ?_, List.length_take_of_le hi.le⟩
  rw [← List.drop_eq_getElem_cons hi, List.take_append_drop]

/-- A token and one after it have the tokens in between them. -/
theorem exists_split_of_lt (hi : ts[i]? = some t) (hj : ts[j]? = some u) (hij : i < j) :
    ∃ before between after, ts = before ++ t :: (between ++ u :: after) ∧ before.length = i ∧
      before.length + 1 + between.length = j := by
  obtain ⟨before, rest, rfl, rfl⟩ := exists_split_of_getElem? hi
  obtain ⟨m, rfl⟩ := Nat.exists_eq_add_of_lt hij
  have hm : rest[m]? = some u := by
    have hindex : before.length + m + 1 - before.length = m + 1 := by omega
    rwa [List.getElem?_append_right (by omega), hindex, List.getElem?_cons_succ] at hj
  obtain ⟨between, after, rfl, rfl⟩ := exists_split_of_getElem? hm
  exact ⟨before, between, after, rfl, rfl, by omega⟩

/-- A pair is around balanced tokens: up to the closing parenthesis not more is closed than opened,
and with it one more. -/
theorem Pair.exists_split (h : Pair ts i j) : ∃ before opening between closing after,
    ts = before ++ opening :: (between ++ closing :: after) ∧ opening.opens = true ∧
      closing.closes = true ∧ Balanced between ∧ before.length = i ∧
      before.length + 1 + between.length = j := by
  obtain ⟨hlt, ⟨opening, hi, ho⟩, ⟨closing, hj, hc⟩, hover, hleast⟩ := h
  obtain ⟨before, between, after, rfl, rfl, rfl⟩ := exists_split_of_lt hi hj hlt
  refine ⟨before, opening, between, closing, after, rfl, ho, hc, ?_, rfl, rfl⟩
  -- a beginning of the tokens in between ends below the closing one
  have hshort : ∀ us, us <+: between → ¬ Overcloses us := by
    rintro us ⟨vs, rfl⟩
    cases us with
    | nil => simp [Overcloses]
    | cons u us =>
        have hover' := hleast (before.length + (u :: us).length) (by simp)
          (by simp only [List.length_append]; omega)
        rw [upTo_of_split rfl, Nat.add_sub_cancel_left, List.append_assoc, List.take_left] at hover'
        exact hover'
  refine balanced_iff.2 ⟨hshort, ?_⟩
  have hle := hshort between List.prefix_rfl
  rw [upTo_closing rfl, overcloses_snoc_iff hc] at hover
  exact Nat.le_antisymm (not_lt.1 hle) hover

/-- Further tokens leave the pairs as they are. -/
theorem Pair.append (h : Pair ts i j) (us : List Token) : Pair (ts ++ us) i j := by
  obtain ⟨before, opening, between, closing, after, rfl, ho, hc, hbetween, rfl, rfl⟩ :=
    h.exists_split
  have hsplit : before ++ opening :: (between ++ closing :: after) ++ us =
      before ++ opening :: (between ++ closing :: (after ++ us)) := by simp
  exact .of_split hsplit ho hc hbetween rfl rfl

end Pairs

/-! ## The pairs that are found -/

/-- The pairing has come to the end of the tokens `ts`. Each opening parenthesis that waits has as
many others after it that are still open as stand above it on the stack, and the slots that are
filled are those of pairs. -/
structure Reached (ts : List Token) (waiting : List Nat) (partners : Array (Option Nat)) :
    Prop where
  waits : ∀ k o, waiting[k]? = some o → ∃ before opening after, ts = before ++ opening :: after ∧
    before.length = o ∧ opening.opens = true ∧ depth? 0 after = some k
  filled : ∀ i j : Nat, partners[i]? = some (some j) → Pair ts i j ∨ Pair ts j i

section Steps

variable {i j o : Nat} {t : Token} {ts us : List Token} {waiting : List Nat}
  {partners : Array (Option Nat)}

/-- Before the first token nothing waits, and no slot is filled. -/
theorem reached_nil (n : Nat) : Reached [] [] (Array.replicate n none) where
  waits := by
    intro k o hk
    cases hk
  filled := by
    intro i j hij
    simp [Array.getElem?_replicate] at hij

/-- Filled slots stay those of pairs. -/
theorem Reached.filled_append (h : Reached ts waiting partners) (us : List Token) :
    ∀ i j : Nat, partners[i]? = some (some j) → Pair (ts ++ us) i j ∨ Pair (ts ++ us) j i :=
  fun i j hij => (h.filled i j hij).imp (fun hp => hp.append us) fun hp => hp.append us

/-- An opening parenthesis waits on top of the others. -/
theorem Reached.snoc_of_opens (h : Reached ts waiting partners) (ht : t.opens = true) :
    Reached (ts ++ [t]) (ts.length :: waiting) partners where
  waits := by
    intro k o hk
    cases k with
    | zero =>
        obtain rfl : ts.length = o := by simpa using hk
        exact ⟨ts, t, [], rfl, rfl, ht, rfl⟩
    | succ k =>
        obtain ⟨before, opening, after, rfl, rfl, hopens, hafter⟩ := h.waits k o (by simpa using hk)
        exact ⟨before, opening, after ++ [t], by simp, rfl, hopens,
          depth?_snoc_of_opens hafter ht⟩
  filled := h.filled_append [t]

/-- A closing parenthesis makes a pair with the opening one on top of the stack, the only one with
balanced tokens after it. -/
theorem Reached.snoc_of_closes (h : Reached ts (o :: waiting) partners) (ht : t.closes = true) :
    Reached (ts ++ [t]) waiting
      ((partners.setIfInBounds o (some ts.length)).setIfInBounds ts.length (some o)) where
  waits := by
    intro k o' hk
    obtain ⟨before, opening, after, rfl, rfl, hopens, hafter⟩ :=
      h.waits (k + 1) o' (by simpa using hk)
    exact ⟨before, opening, after ++ [t], by simp, rfl, hopens, depth?_snoc_of_closes hafter ht⟩
  filled := by
    have hpair : Pair (ts ++ [t]) o ts.length := by
      obtain ⟨before, opening, after, rfl, rfl, hopens, hafter⟩ := h.waits 0 o rfl
      have hsplit :
          before ++ opening :: after ++ [t] = before ++ opening :: (after ++ t :: []) := by simp
      refine .of_split hsplit hopens ht hafter rfl ?_
      rw [List.length_append, List.length_cons]
      omega
    intro i j hij
    -- the slots of the two are filled with one another, and the others are as before
    by_cases hi : i = ts.length
    · subst hi
      obtain rfl : o = j := by
        rw [Array.getElem?_setIfInBounds_self] at hij
        split at hij
        · simpa using hij
        · cases hij
      exact .inr hpair
    by_cases hi' : i = o
    · subst hi'
      obtain rfl : ts.length = j := by
        rw [Array.getElem?_setIfInBounds_ne (Ne.symm hi), Array.getElem?_setIfInBounds_self] at hij
        split at hij
        · simpa using hij
        · cases hij
      exact .inl hpair
    · rw [getElem?_setPair hi hi'] at hij
      exact h.filled_append [t] i j hij

/-- A closing parenthesis that has nothing to close changes nothing. -/
theorem Reached.snoc_of_nil (h : Reached ts [] partners) (t : Token) :
    Reached (ts ++ [t]) [] partners where
  waits := by
    intro k o hk
    cases hk
  filled := h.filled_append [t]

/-- A token that is no parenthesis changes nothing. -/
theorem Reached.snoc_of_other (h : Reached ts waiting partners) (ho : ¬ t.opens = true)
    (hc : ¬ t.closes = true) : Reached (ts ++ [t]) waiting partners where
  waits := by
    intro k o hk
    obtain ⟨before, opening, after, rfl, rfl, hopens, hafter⟩ := h.waits k o hk
    exact ⟨before, opening, after ++ [t], by simp, rfl, hopens,
      depth?_snoc_of_other hafter ho hc⟩
  filled := h.filled_append [t]

/-- From a state that has been reached the pairing goes on to fill the slots of pairs only. -/
theorem Reached.pairFrom (h : Reached ts waiting partners)
    (hij : (pairFrom us ts.length waiting partners)[i]? = some (some j)) :
    Pair (ts ++ us) i j ∨ Pair (ts ++ us) j i := by
  induction us generalizing ts waiting partners with
  | nil =>
      rw [List.append_nil]
      exact h.filled i j hij
  | cons t us ih =>
      -- past the token something has been reached again, whichever of the four kinds it is
      have hnext : ts ++ t :: us = ts ++ [t] ++ us := by simp
      have hlength : (ts ++ [t]).length = ts.length + 1 := by simp
      rw [hnext]
      by_cases ho : t.opens = true
      · rw [pairFrom_cons_of_opens ho, ← hlength] at hij
        exact ih (h.snoc_of_opens ho) hij
      by_cases hc : t.closes = true
      · cases waiting with
        | nil =>
            rw [pairFrom_cons_of_unmatched ho hc, ← hlength] at hij
            exact ih (h.snoc_of_nil t) hij
        | cons o waiting =>
            rw [pairFrom_cons_of_closes ho hc, ← hlength] at hij
            exact ih (h.snoc_of_closes hc) (by simpa using hij)
      · rw [pairFrom_cons_of_other ho hc, ← hlength] at hij
        exact ih (h.snoc_of_other ho hc) hij

end Steps

/-! ## Partners -/

section Partners

open TokenStream (ofList)

variable {i j k l : Nat} {t u : Token} {ts : List Token}

/-- The partners are the pairs, seen from either side. -/
theorem partner?_eq_some_iff : (ofList ts).partner? i = some j ↔ Pair ts i j ∨ Pair ts j i := by
  rw [TokenStream.partner?, Option.join_eq_some_iff]
  constructor
  · intro hij
    exact (reached_nil ts.length).pairFrom hij
  · rintro (h | h)
    · obtain ⟨before, opening, between, closing, after, rfl, ho, hc, hbetween, rfl, rfl⟩ :=
        h.exists_split
      exact (partners_of_balanced ho hc hbetween).1
    · obtain ⟨before, opening, between, closing, after, rfl, ho, hc, hbetween, rfl, rfl⟩ :=
        h.exists_split
      exact (partners_of_balanced ho hc hbetween).2

/-- Partners are mutual. -/
theorem partner?_comm : (ofList ts).partner? i = some j ↔ (ofList ts).partner? j = some i := by
  rw [partner?_eq_some_iff, partner?_eq_some_iff, or_comm]

theorem partner?_eq_some_iff_of_lt (h : i < j) :
    (ofList ts).partner? i = some j ↔ Pair ts i j := by
  rw [partner?_eq_some_iff]
  exact or_iff_left fun hp => absurd hp.lt h.not_gt

/-- Only parentheses have partners. -/
theorem exists_paren_of_partner? (h : (ofList ts).partner? i = some j) :
    ∃ t, ts[i]? = some t ∧ (t.opens = true ∨ t.closes = true) := by
  rcases partner?_eq_some_iff.1 h with hp | hp
  · obtain ⟨t, ht, ho⟩ := hp.opens
    exact ⟨t, ht, .inl ho⟩
  · obtain ⟨t, ht, hc⟩ := hp.closes
    exact ⟨t, ht, .inr hc⟩

/-- A parenthesis inside of a pair has its partner there: what stands before it and what stands
after it are balanced only together. -/
theorem Pair.exists_partner?_of_inside (h : Pair ts i j) (hik : i < k) (hkj : k < j)
    (ht : ts[k]? = some t) (hparen : t.opens = true ∨ t.closes = true) :
    ∃ l, i < l ∧ l < j ∧ (ofList ts).partner? k = some l := by
  obtain ⟨before, opening, between, closing, after, rfl, -, -, hbetween, rfl, rfl⟩ :=
    h.exists_split
  obtain ⟨m, rfl⟩ := Nat.exists_eq_add_of_lt hik
  have hm : between[m]? = some t := by
    have hindex : before.length + m + 1 - before.length = m + 1 := by omega
    rw [List.getElem?_append_right (by omega), hindex, List.getElem?_cons_succ,
      List.getElem?_append_left (by omega)] at ht
    exact ht
  obtain ⟨first, last, rfl, rfl⟩ := exists_split_of_getElem? hm
  rw [Balanced, depth?_append, Option.bind_eq_some_iff] at hbetween
  obtain ⟨d, hfirst, hlast⟩ := hbetween
  rcases hparen with ho | hc
  · -- it is closed among the tokens after it, which close more than they open
    rw [depth?_cons_of_opens ho] at hlast
    have hnone : depth? 0 last = none := by
      rw [Option.eq_none_iff_forall_ne_some]
      intro e he
      have hadd := depth?_add he (d + 1)
      rw [Nat.zero_add, hlast, Option.some.injEq] at hadd
      omega
    obtain ⟨mid, c, rest, rfl, hc, hmid⟩ := exists_closing_of_depth?_eq_none hnone
    have hsplit : before ++ opening :: (first ++ t :: (mid ++ c :: rest) ++ closing :: after) =
        (before ++ opening :: first) ++ t :: (mid ++ c :: (rest ++ closing :: after)) := by simp
    refine ⟨before.length + first.length + 1 + (1 + mid.length), by omega, ?_,
      partner?_eq_some_iff.2 (.inl (.of_split hsplit ho hc hmid ?_ ?_))⟩ <;>
    · simp only [List.length_append, List.length_cons]
      omega
  · -- it closes one of the parentheses that the tokens before it leave open
    cases d with
    | zero =>
        rw [depth?_zero_cons_of_closes (Token.not_opens_of_closes hc) hc] at hlast
        cases hlast
    | succ d =>
        obtain ⟨rest, o, mid, rfl, ho, hmid⟩ := exists_opening_of_depth? hfirst d.succ_pos
        have hsplit :
            before ++ opening :: (rest ++ o :: mid ++ t :: last ++ closing :: after) =
              (before ++ opening :: rest) ++ o :: (mid ++ t :: (last ++ closing :: after)) := by
          simp
        refine ⟨before.length + 1 + rest.length, by omega, ?_,
          partner?_eq_some_iff.2 (.inr (.of_split hsplit ho hc hmid ?_ ?_))⟩ <;>
        · simp only [List.length_append, List.length_cons]
          omega

/-- Pairs do not cross: a parenthesis between two partners has its own partner between them. -/
theorem between_of_partner? (h : (ofList ts).partner? i = some j)
    (h' : (ofList ts).partner? k = some l) (hik : i < k) (hkj : k < j) : i < l ∧ l < j := by
  obtain ⟨t, ht, hparen⟩ := exists_paren_of_partner? h'
  obtain ⟨l', hil, hlj, hl'⟩ :=
    ((partner?_eq_some_iff_of_lt (hik.trans hkj)).1 h).exists_partner?_of_inside hik hkj ht hparen
  obtain rfl : l' = l := Option.some.inj (hl'.symm.trans h')
  exact ⟨hil, hlj⟩

/-- Of an opening parenthesis and a closing one after it, at least one has a partner. -/
theorem exists_partner?_of_opens_closes (hij : i < j) (hi : ts[i]? = some t) (ho : t.opens = true)
    (hj : ts[j]? = some u) (hc : u.closes = true) :
    (∃ k, (ofList ts).partner? i = some k) ∨ ∃ k, (ofList ts).partner? j = some k := by
  obtain ⟨before, between, after, rfl, rfl, rfl⟩ := exists_split_of_lt hi hj hij
  -- the tokens in between close too much, or they are balanced, or they leave something open
  cases hdepth : depth? 0 between with
  | none =>
      obtain ⟨mid, c, rest, rfl, hc', hmid⟩ := exists_closing_of_depth?_eq_none hdepth
      have hsplit : before ++ t :: (mid ++ c :: rest ++ u :: after) =
          before ++ t :: (mid ++ c :: (rest ++ u :: after)) := by simp
      exact .inl ⟨_, partner?_eq_some_iff.2 (.inl (.of_split hsplit ho hc' hmid rfl rfl))⟩
  | some d =>
      cases d with
      | zero =>
          exact .inl ⟨_, partner?_eq_some_iff.2 (.inl (.of_split rfl ho hc hdepth rfl rfl))⟩
      | succ d =>
          obtain ⟨rest, o, mid, rfl, ho', hmid⟩ := exists_opening_of_depth? hdepth d.succ_pos
          have hsplit : before ++ t :: (rest ++ o :: mid ++ u :: after) =
              (before ++ t :: rest) ++ o :: (mid ++ u :: after) := by simp
          refine .inr ⟨_, partner?_eq_some_iff.2 (.inr (.of_split hsplit ho' hc hmid rfl ?_))⟩
          simp only [List.length_append, List.length_cons]
          omega

/-- The partners are those of the balanced matching of the parentheses. They are found by counting
(`opening`, `closing`), and what is in no pair or past the end has none. Partners are mutual, pairs
do not cross, and all parentheses inside of a pair have their partners there (`inside`). No opening
parenthesis without a partner stands before a closing one without (`leftover`). -/
structure BalancedMatching (ts : List Token) (partner? : Nat → Option Nat) : Prop where
  opening : ∀ i j, i < j → (partner? i = some j ↔ Pair ts i j)
  closing : ∀ i j, i < j → (partner? j = some i ↔ Pair ts i j)
  unpaired : ∀ i, (∀ j, ¬ Pair ts i j ∧ ¬ Pair ts j i) → partner? i = none
  outside : ∀ i, ts.length ≤ i → partner? i = none
  comm : ∀ i j, partner? i = some j → partner? j = some i
  nested : ∀ i j k l, partner? i = some j → partner? k = some l → i < k → k < j → i < l ∧ l < j
  inside : ∀ i j k t, partner? i = some j → i < k → k < j → ts[k]? = some t →
    t.opens = true ∨ t.closes = true → ∃ l, i < l ∧ l < j ∧ partner? k = some l
  leftover : ∀ i j t u, i < j → ts[i]? = some t → t.opens = true → partner? i = none →
    ts[j]? = some u → u.closes = true → partner? j ≠ none

/-- The pairing gives the balanced matching of all tokens, whatever they are. -/
theorem partner?_balancedMatching (ts : List Token) :
    BalancedMatching ts (ofList ts).partner? where
  opening i j hij := partner?_eq_some_iff_of_lt hij
  closing i j hij := by
    rw [partner?_comm]
    exact partner?_eq_some_iff_of_lt hij
  unpaired i hi := by
    rw [Option.eq_none_iff_forall_ne_some]
    intro j hj
    rcases partner?_eq_some_iff.1 hj with hp | hp
    · exact (hi j).1 hp
    · exact (hi j).2 hp
  outside i hi := by
    rw [Option.eq_none_iff_forall_ne_some]
    intro j hj
    obtain ⟨t, ht, -⟩ := exists_paren_of_partner? hj
    rw [List.getElem?_eq_none hi] at ht
    cases ht
  comm i j hij := partner?_comm.1 hij
  nested i j k l := between_of_partner?
  inside i j k t hij hik hkj :=
    ((partner?_eq_some_iff_of_lt (hik.trans hkj)).1 hij).exists_partner?_of_inside hik hkj
  leftover i j t u hij hi ho hnone hj hc := by
    rcases exists_partner?_of_opens_closes hij hi ho hj hc with ⟨k, hk⟩ | ⟨k, hk⟩
    · rw [hnone] at hk
      cases hk
    · rw [hk]
      exact Option.some_ne_none k

end Partners

end Pairing

end ParenGap
