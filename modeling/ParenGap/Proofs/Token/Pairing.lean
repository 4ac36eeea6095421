import Mathlib.Tactic
import ParenGap.Token

/-!
# Pairing of balanced parentheses

`depth?` counts the parentheses that are open after some tokens; tokens are `Balanced` if they open
and close the same parentheses. Balanced tokens leave the stack of the pairing as it is, and touch
no slot but their own (`pairFrom_append_of_depth?`). So an opening and a closing parenthesis with
balanced tokens in between are partners, whatever stands around them (`partners_of_balanced`).
-/

set_option autoImplicit false

namespace ParenGap

/-- No token both opens and closes. -/
theorem Token.not_opens_of_closes {t : Token} (hc : t.closes = true) : ¬ t.opens = true := by
  intro ho
  simp only [opens, closes, isPunctuator, Bool.and_eq_true, beq_iff_eq] at ho hc
  rw [hc.2] at ho
  simp at ho

namespace Pairing

/-- The number of open parentheses after some tokens, from the number of those that are open before
them. It is none if a closing parenthesis has nothing to close. -/
def depth? : Nat → List Token → Option Nat
  | d, [] => some d
  | d, t :: ts =>
      if t.opens then
        depth? (d + 1) ts
      else if t.closes then
        match d with
        | 0 => none
        | d + 1 => depth? d ts
      else
        depth? d ts

/-- The tokens close every parenthesis that they open, and no other. -/
def Balanced (ts : List Token) : Prop := depth? 0 ts = some 0

instance (ts : List Token) : Decidable (Balanced ts) := inferInstanceAs (Decidable (_ = _))

section Depth

variable {d : Nat} {t : Token} {ts us : List Token}

theorem depth?_cons_of_opens (h : t.opens = true) : depth? d (t :: ts) = depth? (d + 1) ts := by
  rw [depth?.eq_def]
  exact if_pos h

theorem depth?_succ_cons_of_closes (ho : ¬ t.opens = true) (hc : t.closes = true) :
    depth? (d + 1) (t :: ts) = depth? d ts := by
  rw [depth?, if_neg ho, if_pos hc]

theorem depth?_zero_cons_of_closes (ho : ¬ t.opens = true) (hc : t.closes = true) :
    depth? 0 (t :: ts) = none := by
  rw [depth?, if_neg ho, if_pos hc]

theorem depth?_cons_of_other (ho : ¬ t.opens = true) (hc : ¬ t.closes = true) :
    depth? d (t :: ts) = depth? d ts := by
  rw [depth?.eq_def]
  exact (if_neg ho).trans (if_neg hc)

/-- The depth after a list is the depth after its second part, from the depth after its first. -/
theorem depth?_append : depth? d (ts ++ us) = (depth? d ts).bind fun e => depth? e us := by
  induction ts generalizing d with
  | nil => rfl
  | cons t ts ih =>
      rw [List.cons_append]
      by_cases ho : t.opens = true
      · rw [depth?_cons_of_opens ho, depth?_cons_of_opens ho, ih]
      by_cases hc : t.closes = true
      · cases d with
        | zero => rw [depth?_zero_cons_of_closes ho hc, depth?_zero_cons_of_closes ho hc]; rfl
        | succ d => rw [depth?_succ_cons_of_closes ho hc, depth?_succ_cons_of_closes ho hc, ih]
      · rw [depth?_cons_of_other ho hc, depth?_cons_of_other ho hc, ih]

theorem Balanced.append (hts : Balanced ts) (hus : Balanced us) : Balanced (ts ++ us) := by
  rw [Balanced, depth?_append, hts]
  exact hus

/-- Tokens without parentheses are balanced. -/
theorem balanced_of_no_paren (h : ∀ t ∈ ts, ¬ t.opens = true ∧ ¬ t.closes = true) :
    Balanced ts := by
  induction ts with
  | nil => rfl
  | cons t ts ih =>
      obtain ⟨ho, hc⟩ := h t List.mem_cons_self
      rw [Balanced, depth?_cons_of_other ho hc]
      exact ih fun u hu => h u (List.mem_cons_of_mem _ hu)

end Depth

/-! ## The run of the pairing -/

section Run

variable {i j o : Nat} {waiting : List Nat} {t : Token} {ts : List Token}
  {partners : Array (Option Nat)}

theorem pairFrom_cons_of_opens (h : t.opens = true) :
    pairFrom (t :: ts) i waiting partners = pairFrom ts (i + 1) (i :: waiting) partners := by
  rw [pairFrom.eq_def]
  exact if_pos h

theorem pairFrom_cons_of_closes (ho : ¬ t.opens = true) (hc : t.closes = true) :
    pairFrom (t :: ts) i (o :: waiting) partners = pairFrom ts (i + 1) waiting
      ((partners.setIfInBounds o (some i)).setIfInBounds i (some o)) := by
  rw [pairFrom, if_neg ho, if_pos hc]

theorem pairFrom_cons_of_unmatched (ho : ¬ t.opens = true) (hc : t.closes = true) :
    pairFrom (t :: ts) i [] partners = pairFrom ts (i + 1) [] partners := by
  rw [pairFrom, if_neg ho, if_pos hc]

theorem pairFrom_cons_of_other (ho : ¬ t.opens = true) (hc : ¬ t.closes = true) :
    pairFrom (t :: ts) i waiting partners = pairFrom ts (i + 1) waiting partners := by
  rw [pairFrom.eq_def]
  exact (if_neg ho).trans (if_neg hc)

/-- A pair fills the slots of its two members only. -/
theorem getElem?_setPair (hji : j ≠ i) (hjo : j ≠ o) :
    ((partners.setIfInBounds o (some i)).setIfInBounds i (some o))[j]? = partners[j]? := by
  rw [Array.getElem?_setIfInBounds_ne (Ne.symm hji), Array.getElem?_setIfInBounds_ne (Ne.symm hjo)]

/-- Tokens that close the latest openings, those of `opened`, and are balanced otherwise take these
off the stack. They touch the slots of these openings and their own. -/
theorem pairFrom_append_of_depth? (i : Nat) (opened waiting : List Nat)
    (partners : Array (Option Nat)) (h : depth? opened.length ts = some 0) :
    ∃ partners', partners'.size = partners.size ∧
      (∀ j, j ∉ opened → j < i ∨ i + ts.length ≤ j → partners'[j]? = partners[j]?) ∧
      ∀ us, pairFrom (ts ++ us) i (opened ++ waiting) partners =
        pairFrom us (i + ts.length) waiting partners' := by
  -- the top of the stack grows and shrinks with the depth
  induction ts generalizing i opened partners with
  | nil =>
      obtain rfl : opened = [] := List.eq_nil_of_length_eq_zero (Option.some.inj h)
      exact ⟨partners, rfl, fun _ _ _ => rfl, fun _ => rfl⟩
  | cons t ts ih =>
      have hlength : i + (t :: ts).length = i + 1 + ts.length := by
        rw [List.length_cons]
        omega
      rw [hlength]
      by_cases ho : t.opens = true
      · -- the new opening waits on top of the others, and is closed with them
        rw [depth?_cons_of_opens ho] at h
        obtain ⟨partners', hsize, hslots, hrun⟩ := ih (i + 1) (i :: opened) partners h
        refine ⟨partners', hsize, fun j hj hout => hslots j ?_ (by omega), fun us => ?_⟩
        · rw [List.mem_cons, not_or]
          exact ⟨by omega, hj⟩
        · rw [List.cons_append, pairFrom_cons_of_opens ho]
          exact hrun us
      by_cases hc : t.closes = true
      · -- it closes the latest opening, which is one of `opened`
        cases opened with
        | nil =>
            rw [List.length_nil, depth?_zero_cons_of_closes ho hc] at h
            cases h
        | cons o opened =>
            rw [List.length_cons, depth?_succ_cons_of_closes ho hc] at h
            obtain ⟨partners', hsize, hslots, hrun⟩ := ih (i + 1) opened
              ((partners.setIfInBounds o (some i)).setIfInBounds i (some o)) h
            refine ⟨partners', by simpa using hsize, fun j hj hout => ?_, fun us => ?_⟩
            · rw [List.mem_cons, not_or] at hj
              rw [hslots j hj.2 (by omega), getElem?_setPair (by omega) hj.1]
            · rw [List.cons_append, List.cons_append, pairFrom_cons_of_closes ho hc]
              exact hrun us
      · rw [depth?_cons_of_other ho hc] at h
        obtain ⟨partners', hsize, hslots, hrun⟩ := ih (i + 1) opened partners h
        refine ⟨partners', hsize, fun j hj hout => hslots j hj (by omega), fun us => ?_⟩
        rw [List.cons_append, pairFrom_cons_of_other ho hc]
        exact hrun us

/-- What waits after some tokens has an index below them. -/
theorem exists_pairFrom_append (ts : List Token) (partners : Array (Option Nat))
    (hwaiting : ∀ x ∈ waiting, x < i) :
    ∃ waiting' partners', partners'.size = partners.size ∧
      (∀ x ∈ waiting', x < i + ts.length) ∧
      ∀ us, pairFrom (ts ++ us) i waiting partners =
        pairFrom us (i + ts.length) waiting' partners' := by
  induction ts generalizing i waiting partners with
  | nil => exact ⟨waiting, partners, rfl, hwaiting, fun _ => rfl⟩
  | cons t ts ih =>
      have hlength : i + (t :: ts).length = i + 1 + ts.length := by
        rw [List.length_cons]
        omega
      have hlater : ∀ x ∈ waiting, x < i + 1 := fun x hx => Nat.lt_succ_of_lt (hwaiting x hx)
      simp only [hlength, List.cons_append]
      by_cases ho : t.opens = true
      · simp only [pairFrom_cons_of_opens ho]
        exact ih partners (List.forall_mem_cons.2 ⟨Nat.lt_succ_self i, hlater⟩)
      by_cases hc : t.closes = true
      · cases waiting with
        | nil =>
            simp only [pairFrom_cons_of_unmatched ho hc]
            exact ih partners hlater
        | cons o waiting =>
            simp only [pairFrom_cons_of_closes ho hc]
            obtain ⟨waiting', partners', hsize, hrest⟩ :=
              ih ((partners.setIfInBounds o (some i)).setIfInBounds i (some o))
                (List.forall_mem_cons.1 hlater).2
            exact ⟨waiting', partners', by simpa using hsize, hrest⟩
      · simp only [pairFrom_cons_of_other ho hc]
        exact ih partners hlater

/-- The slot of an earlier token that does not wait is settled. -/
theorem getElem?_pairFrom (hji : j < i) (hj : j ∉ waiting) :
    (pairFrom ts i waiting partners)[j]? = partners[j]? := by
  induction ts generalizing i waiting partners with
  | nil => rfl
  | cons t ts ih =>
      have hji' : j < i + 1 := Nat.lt_succ_of_lt hji
      by_cases ho : t.opens = true
      · rw [pairFrom_cons_of_opens ho]
        exact ih hji' (List.not_mem_cons_of_ne_of_not_mem hji.ne hj)
      by_cases hc : t.closes = true
      · cases waiting with
        | nil =>
            rw [pairFrom_cons_of_unmatched ho hc]
            exact ih hji' hj
        | cons o waiting =>
            rw [List.mem_cons, not_or] at hj
            rw [pairFrom_cons_of_closes ho hc, ih hji' hj.2, getElem?_setPair hji.ne hj.1]
      · rw [pairFrom_cons_of_other ho hc]
        exact ih hji' hj

end Run

/-- Parentheses with balanced tokens in between are partners. -/
theorem partners_of_balanced {before between after : List Token} {opening closing : Token}
    (ho : opening.opens = true) (hc : closing.closes = true) (hbetween : Balanced between) :
    let ps := partners (before ++ opening :: (between ++ closing :: after))
    let i := before.length
    let j := before.length + 1 + between.length
    ps[i]? = some (some j) ∧ ps[j]? = some (some i) := by
  intro ps i j
  have hij : i < j := by
    simp only [i, j]
    omega
  -- the run up to the opening, and from there up to the closing, which pairs the two
  obtain ⟨waiting, p, hsize, hwaiting, hrun⟩ := exists_pairFrom_append before
    (Array.replicate (before ++ opening :: (between ++ closing :: after)).length none)
    (fun x (hx : x ∈ []) => absurd hx List.not_mem_nil)
  obtain ⟨q, hsize', -, hrun'⟩ := pairFrom_append_of_depth? (i + 1) [] (i :: waiting) p hbetween
  have hps : ps = pairFrom after (j + 1) waiting
      ((q.setIfInBounds i (some j)).setIfInBounds j (some i)) := by
    simp only [ps, partners]
    rw [hrun, pairFrom_cons_of_opens ho, Nat.zero_add]
    exact (hrun' _).trans (pairFrom_cons_of_closes (Token.not_opens_of_closes hc) hc)
  have hi : i ∉ waiting := fun h => by simpa [i] using hwaiting i h
  have hj : j ∉ waiting := fun h => by
    have := hwaiting j h
    omega
  have hjq : j < q.size := by
    rw [hsize', hsize, Array.size_replicate]
    simp only [j, List.length_append, List.length_cons]
    omega
  rw [hps, getElem?_pairFrom (by omega) hi, getElem?_pairFrom (by omega) hj]
  constructor
  · rw [Array.getElem?_setIfInBounds_ne hij.ne',
      Array.getElem?_setIfInBounds_self_of_lt (by omega)]
  · rw [Array.getElem?_setIfInBounds_self_of_lt (by simpa using hjq)]

end Pairing

end ParenGap
