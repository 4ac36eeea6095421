import Mathlib.Tactic
import ParenGap.Proofs.Json.Soundness

/-!
# What the reader is bound to take

Wherever a text spells a value, the reader takes it off as that value, or fails (`Spells.answered`).
It has two reasons to fail: a number is out of range, or the value is nested deeper than the reader
goes. A `Legible` value gives it neither. So a text that holds a value is read as that value, or
refused (`readFirst_of_textOf`), and for a legible value the texts that are read as it are exactly
those that hold it (`Legible.read_eq_ok_iff`).

The reader is greedy with numbers, so what comes after one must not go on with it. In a JSON text it
never does: white space, a comma or a closing bracket comes next.
-/

set_option autoImplicit false

namespace ParenGap.Json

/-- A value whose numbers are natural numbers of 64 bits and whose arrays and objects are nested
`depth` deep at most. -/
inductive Legible : Nat → Json → Prop
  | null {depth : Nat} : Legible depth .null
  | bool {depth : Nat} (value : Bool) : Legible depth (.bool value)
  | number {depth n : Nat} (h : n < 2 ^ 64) : Legible depth (.ofNat n)
  | string {depth : Nat} (value : String) : Legible depth (.string value)
  | array {depth : Nat} {items : List Json} (h : ∀ v ∈ items, Legible depth v) :
      Legible (depth + 1) (.array items)
  | object {depth : Nat} {members : List (String × Json)}
      (h : ∀ m ∈ members, Legible depth m.2) : Legible (depth + 1) (.object members)

/-- A legible number is written in the digits of a natural number of 64 bits. -/
theorem Legible.exists_eq_toDigits {depth : Nat} {literal : List Char}
    (h : Legible depth (.number literal)) : ∃ n < 2 ^ 64, literal = Nat.toDigits 10 n := by
  generalize hv : Json.number literal = v at h
  cases h with
  | number hn => exact ⟨_, hn, Json.number.inj hv⟩
  | _ => cases hv

namespace Reader

/-- A step of the reader takes `a` off the front of a text and leaves `rest`. -/
def Takes {α : Type} {cs : List Char} (x : Except Slip (α × Shorter cs)) (a : α)
    (rest : List Char) : Prop :=
  ∃ h, x = .ok (a, ⟨rest, h⟩)

/-- A step of the reader takes `a` off the front of a text and leaves `rest`, or it fails, but not
if `sure` holds. -/
def Answers {α : Type} {cs : List Char} (sure : Prop) (x : Except Slip (α × Shorter cs)) (a : α)
    (rest : List Char) : Prop :=
  Takes x a rest ∨ (¬ sure ∧ ∃ slip, x = .error slip)

theorem Answers.map {α β : Type} {cs ds rest : List Char} {sure sure' : Prop} {a : α} {b : β}
    {x : Except Slip (α × Shorter ds)} {f : α × Shorter ds → β × Shorter cs}
    (h : Answers sure x a rest)
    (hf : ∀ hlt, ∃ hlt', f (a, ⟨rest, hlt⟩) = (b, ⟨rest, hlt'⟩)) (hsure : sure' → sure) :
    Answers sure' (x.map f) b rest := by
  rcases h with ⟨hlt, rfl⟩ | ⟨hnot, slip, rfl⟩
  · obtain ⟨hlt', hf⟩ := hf hlt
    exact .inl ⟨hlt', congrArg Except.ok hf⟩
  · exact .inr ⟨fun h => hnot (hsure h), slip, rfl⟩

/-- What comes after a value: nothing, white space, a comma or a closing bracket. -/
def Ends (rest : List Char) : Prop :=
  ∀ c ∈ rest.head?, isSpace c = true ∨ c = ',' ∨ c = ']' ∨ c = '\x7d'

section Ends

variable {c : Char} {rest ws : List Char}

theorem Ends.cons (r : List Char) (h : isSpace c = true ∨ c = ',' ∨ c = ']' ∨ c = '\x7d') :
    Ends (c :: r) := by
  intro d hd
  obtain rfl := Option.some.inj hd
  exact h

theorem Ends.spaces_append (hws : Spaces ws) (h : Ends rest) : Ends (ws ++ rest) := by
  cases ws with
  | nil => exact h
  | cons c ws => exact .cons _ (.inl (hws c List.mem_cons_self))

/-- What comes after a number does not go on with it. -/
theorem Ends.head_ne (h : Ends rest) (hc : c ∈ rest.head?) :
    c.isDigit = false ∧ c ≠ '.' ∧ c ≠ 'e' ∧ c ≠ 'E' := by
  have hc := h c hc
  simp only [isSpace, Bool.or_eq_true, beq_iff_eq] at hc
  rcases hc with (((rfl | rfl) | rfl) | rfl) | rfl | rfl | rfl <;> decide

end Ends

section Numbers

variable {n : Nat} {c : Char} {cs ds e f literal rest w : List Char}

theorem digits_append (hds : ∀ c ∈ ds, c.isDigit = true)
    (hrest : ∀ c ∈ rest.head?, c.isDigit = false) : digits (ds ++ rest) = ds := by
  have hnone : rest.takeWhile Char.isDigit = [] := by
    cases rest with
    | nil => rfl
    | cons c r => exact List.takeWhile_cons_of_neg (by simp [hrest c rfl])
  rw [digits, List.takeWhile_append_of_pos hds, hnone, List.append_nil]

theorem afterDigits_append (hds : ∀ c ∈ ds, c.isDigit = true)
    (hrest : ∀ c ∈ rest.head?, c.isDigit = false) : (afterDigits (ds ++ rest)).val = rest := by
  have h := List.takeWhile_append_dropWhile (p := Char.isDigit) (l := ds ++ rest)
  rw [← digits, digits_append hds hrest] at h
  exact List.append_cancel_left h

/-! ### Numbers of any kind -/

theorem Exponent.head_ne (he : Exponent e) (hrest : Ends rest) (hc : c ∈ (e ++ rest).head?) :
    c.isDigit = false ∧ c ≠ '.' := by
  cases he with
  | none =>
      obtain ⟨hdigit, hdot, -⟩ := hrest.head_ne hc
      exact ⟨hdigit, hdot⟩
  | some he =>
      obtain rfl := Option.some.inj hc
      rcases he with rfl | rfl <;> decide

theorem Fraction.head_ne (hf : Fraction f) (he : Exponent e) (hrest : Ends rest)
    (hc : c ∈ (f ++ (e ++ rest)).head?) : c.isDigit = false := by
  cases hf with
  | none => exact (Exponent.head_ne he hrest hc).1
  | some =>
      obtain rfl := Option.some.inj hc
      rfl

theorem exponentDigits_exact (n : Nat) (k : Int) (negative : Bool) (cs : List Char) :
    Ensures (exponentDigits n k negative cs) fun r => r.val = (afterDigits cs).val := by
  simp only [exponentDigits]
  split
  · split <;> exact .error
  · split
    · exact (accept_sound _ _).map fun r hr => hr.symm
    · split
      · exact .error
      · exact .ok rfl

theorem exponent_exact (n : Nat) (k : Int) (he : Exponent e) (hrest : Ends rest) :
    Ensures (exponent n k (e ++ rest)) fun r => r.val = rest := by
  cases he with
  | none =>
      cases rest with
      | nil => exact fun r hr => (accept_sound n k r hr).symm
      | cons c r =>
          obtain ⟨-, -, hlower, hupper⟩ := hrest.head_ne (c := c) rfl
          have hc : ¬ (c == 'e' || c == 'E') = true := by simp [hlower, hupper]
          simp only [List.nil_append, exponent, if_neg hc]
          exact fun r hr => (accept_sound n k r hr).symm
  | @some c sign ds hc hsign hds =>
      have hc : (c == 'e' || c == 'E') = true := by simpa using hc
      have hnone : ∀ c ∈ rest.head?, c.isDigit = false := fun c hc => (hrest.head_ne hc).1
      have hafter := afterDigits_append hds.all hnone
      obtain ⟨d, ds, rfl⟩ := List.exists_cons_of_ne_nil hds.ne_nil
      simp only [List.cons_append, exponent, if_pos hc]
      rcases hsign with rfl | rfl | rfl
      · -- without a sign the reader looks at the first digit, which it must not take for one
        have hdigit := hds.all d List.mem_cons_self
        have hd : ¬ (d == '+' || d == '-') = true := by
          simp [isDigit_ne hdigit (d := '+') rfl, isDigit_ne hdigit (d := '-') rfl]
        simp only [List.nil_append, List.cons_append, if_neg hd]
        exact (exponentDigits_exact _ _ _ _).map fun r hr => hr.trans hafter
      all_goals
        simp only [List.cons_append, List.nil_append]
        exact (exponentDigits_exact _ _ _ _).map fun r hr => hr.trans hafter

theorem fraction_exact (n : Nat) (k : Int) (hf : Fraction f) (he : Exponent e)
    (hrest : Ends rest) : Ensures (fraction n k (f ++ (e ++ rest))) fun r => r.val = rest := by
  have hhead := fun c hc => Exponent.head_ne (c := c) he hrest hc
  cases hf with
  | none =>
      have hexponent := exponent_exact n k he hrest
      rw [List.nil_append]
      generalize e ++ rest = cs at hhead hexponent
      cases cs with
      | nil => exact hexponent
      | cons c r =>
          have hc : ¬ (c == '.') = true := by simpa using (hhead c rfl).2
          simp only [fraction, if_neg hc]
          exact hexponent
  | @some ds hds =>
      have hnone : ∀ c ∈ (e ++ rest).head?, c.isDigit = false := fun c hc => (hhead c hc).1
      have hdigits := digits_append hds.all hnone
      have hafter := afterDigits_append hds.all hnone
      have hexponent : ∀ n k, Ensures (exponent n k (afterDigits (ds ++ (e ++ rest))).val)
          fun r => r.val = rest := by
        rw [hafter]
        exact fun n k => exponent_exact n k he hrest
      obtain ⟨d, ds, rfl⟩ := List.exists_cons_of_ne_nil hds.ne_nil
      simp only [List.cons_append, fraction, beq_self_eq_true, if_true] at hdigits ⊢
      rw [hdigits]
      exact (hexponent _ _).map fun _ => id

theorem unsigned_exact (hw : Whole w) (hf : Fraction f) (he : Exponent e) (hrest : Ends rest) :
    Ensures (unsigned (w ++ (f ++ (e ++ rest)))) fun r => r.val = rest := by
  cases hw with
  | zero =>
      simp only [List.cons_append, List.nil_append, unsigned, beq_self_eq_true, if_true]
      -- behind a zero the reader refuses another digit, which does not matter here
      split
      · exact (fraction_exact 0 0 hf he hrest).map fun _ => id
      · exact .error
  | @digits d ds hd hds =>
      have hall : ∀ c ∈ ds, c.isDigit = true := fun c hc => hds.all c (List.mem_cons_of_mem d hc)
      have hfraction : ∀ n k, Ensures (fraction n k (afterDigits (ds ++ (f ++ (e ++ rest)))).val)
          fun r => r.val = rest := by
        rw [afterDigits_append hall fun c hc => Fraction.head_ne hf he hrest hc]
        exact fun n k => fraction_exact n k hf he hrest
      have hzero : ¬ (d == '0') = true := by simpa using hd
      simp only [List.cons_append, unsigned, if_neg hzero, if_pos (hds.all d List.mem_cons_self)]
      exact (hfraction _ _).map fun _ => id

/-- A number that is taken off is taken off as a whole. -/
theorem number_exact (h : Numeral literal) (hrest : Ends rest) :
    Ensures (number (literal ++ rest)) fun p => p.2.val = rest := by
  obtain ⟨hsign, hw, hf, he⟩ := h
  rename_i sign w f e
  have hunsigned := unsigned_exact hw hf he hrest
  have happend : (sign ++ (w ++ (f ++ e))) ++ rest = sign ++ (w ++ (f ++ (e ++ rest))) := by
    simp only [List.append_assoc]
  rw [happend]
  rcases hsign with rfl | rfl
  · obtain ⟨d, ds, rfl, hd⟩ := hw.exists_eq_cons
    have hd : ¬ (d == '-') = true := by simpa using isDigit_ne hd rfl
    simp only [List.cons_append, List.nil_append, number, if_neg hd] at hunsigned ⊢
    exact hunsigned.map fun _ => id
  · simp only [List.cons_append, List.nil_append, number, beq_self_eq_true, if_true]
    exact hunsigned.map fun _ => id

/-! ### Natural numbers of 64 bits -/

theorem le_ofDigitChars (n : Nat) (ds : List Char) : n ≤ Nat.ofDigitChars 10 ds n := by
  induction ds generalizing n with
  | nil => exact le_rfl
  | cons d ds ih =>
      rw [Nat.ofDigitChars_cons]
      have := ih (10 * n + (d.toNat - '0'.toNat))
      omega

/-- All digits of a number within the limit are absorbed. -/
theorem absorb_eq {limit : Nat} (h : Nat.ofDigitChars 10 ds n ≤ limit) :
    absorb limit n ds = (Nat.ofDigitChars 10 ds n, []) := by
  induction ds generalizing n with
  | nil => rfl
  | cons d ds ih =>
      rw [Nat.ofDigitChars_cons, Nat.mul_comm] at h ⊢
      rw [absorb, digitValue, if_pos ((le_ofDigitChars _ ds).trans h), ih h]

/-- Rounding at most doubles a number. -/
theorem round53_le (n : Nat) : Magnitude.round53 n ≤ 2 * n := by
  unfold Magnitude.round53
  split
  · omega
  · rename_i hn
    have hpos : n ≠ 0 := by
      rintro rfl
      exact hn (by decide)
    have hunit : Nat.pow 2 (n.log2 - 52) ≤ n :=
      (Nat.pow_le_pow_right (by decide) (Nat.sub_le _ _)).trans (Nat.log2_self_le hpos)
    extract_lets unit quotient remainder
    have hquotient : quotient * unit ≤ n := Nat.div_mul_le_self n unit
    split
    · rw [Nat.add_mul, Nat.one_mul]
      omega
    · omega

/-- A number of 64 bits is far from too large. -/
theorem accept_eq (h : n < 2 ^ 64) (cs : List Char) : accept n 0 cs = .ok ⟨cs, le_rfl⟩ := by
  have hexceeds : Magnitude.exceeds n 0 = false := by
    have hone : Magnitude.round53 (Nat.pow 10 (0 : Int).toNat) = 1 := by decide
    have hround := round53_le n
    have hoverflow : 2 ^ 65 ≤ Magnitude.overflow := by decide +kernel
    have hlt : ¬ Magnitude.overflow ≤ Magnitude.round53 n * 1 := by omega
    simp only [Magnitude.exceeds, hone, hlt, Magnitude.largestPower]
    simp
  rw [accept, hexceeds]
  rfl

theorem fraction_eq (h : n < 2 ^ 64) (hrest : Ends rest) :
    fraction n 0 rest = .ok ⟨rest, le_rfl⟩ := by
  cases rest with
  | nil => exact accept_eq h []
  | cons c r =>
      obtain ⟨-, hdot, hlower, hupper⟩ := hrest.head_ne (c := c) rfl
      have hexponent : exponent n 0 (c :: r) = .ok ⟨c :: r, le_rfl⟩ := by
        simpa [exponent, hlower, hupper] using accept_eq h (c :: r)
      simpa [fraction, hdot] using hexponent

/-- A number is written with at least one digit, and with nothing else. -/
theorem exists_toDigits_eq_cons (n : Nat) :
    ∃ c ds, Nat.toDigits 10 n = c :: ds ∧ ∀ d ∈ c :: ds, d.isDigit = true := by
  obtain ⟨c, ds, hn⟩ := List.exists_cons_of_ne_nil (Nat.toDigits_ne_nil (b := 10) (n := n))
  refine ⟨c, ds, hn, fun d hd => ?_⟩
  exact Nat.isDigit_of_mem_toDigits (by decide) le_rfl (hn ▸ hd)

/-- The digits of a number do not start with a zero, unless it is zero. -/
theorem head?_toDigits_ne (h : 0 < n) : (Nat.toDigits 10 n).head? ≠ some '0' := by
  induction n using Nat.strong_induction_on with
  | h n ih =>
      rcases Nat.lt_or_ge n 10 with hlt | hle
      · rw [Nat.toDigits_of_lt_base hlt, List.head?_cons]
        interval_cases n <;> decide
      · rw [Nat.toDigits_of_base_le (by decide) hle,
          List.head?_append_of_ne_nil _ Nat.toDigits_ne_nil]
        exact ih (n / 10) (Nat.div_lt_self h (by decide)) (Nat.div_pos hle (by decide))

theorem unsigned_eq (h : n < 2 ^ 64) (hrest : Ends rest) :
    ∃ hr, unsigned (Nat.toDigits 10 n ++ rest) = .ok ⟨rest, hr⟩ := by
  have hhead : ∀ c ∈ rest.head?, c.isDigit = false := fun c hc => (hrest.head_ne hc).1
  rcases Nat.eq_zero_or_pos n with rfl | hpos
  · have hzero : Nat.toDigits 10 0 = ['0'] := by decide
    have hnone : digits rest = [] := digits_append (List.forall_mem_nil _) hhead
    rw [hzero, List.singleton_append]
    refine ⟨Nat.lt_succ_self _, ?_⟩
    rw [unsigned, hnone, fraction_eq h hrest]
    rfl
  · obtain ⟨c, ds, hn, hdigits⟩ := exists_toDigits_eq_cons n
    have hvalue : Nat.ofDigitChars 10 (Nat.toDigits 10 n) 0 = n :=
      Nat.ofDigitChars_toDigits (by decide) le_rfl
    have hzero := head?_toDigits_ne hpos
    rw [hn] at hvalue hzero ⊢
    rw [List.forall_mem_cons] at hdigits
    have hc : ¬ (c == '0') = true := by simpa using hzero
    rw [Nat.ofDigitChars_cons, Nat.mul_zero, Nat.zero_add] at hvalue
    have habsorb : absorb significandLimit (digitValue c) ds = (n, []) := by
      have hle : Nat.ofDigitChars 10 ds (digitValue c) ≤ significandLimit :=
        hvalue.trans_le (Nat.le_sub_one_of_lt h)
      rw [absorb_eq hle]
      exact congrArg (·, []) hvalue
    have hfraction : ∃ hle, fraction n (([] : List Char).length : Nat)
        (afterDigits (ds ++ rest)).val = .ok ⟨rest, hle⟩ := by
      rw [afterDigits_append hdigits.2 hhead]
      exact ⟨le_rfl, fraction_eq h hrest⟩
    obtain ⟨hle, hfraction⟩ := hfraction
    rw [List.cons_append]
    refine ⟨?_, ?_⟩
    · simp only [List.length_cons, List.length_append]
      omega
    · rw [unsigned, if_neg hc, if_pos hdigits.1, digits_append hdigits.2 hhead, habsorb]
      simp only []
      rw [hfraction]
      rfl

/-- A natural number of 64 bits is taken off in its digits. -/
theorem takes_number (h : n < 2 ^ 64) (hrest : Ends rest) :
    Takes (number (Nat.toDigits 10 n ++ rest)) (Nat.toDigits 10 n) rest := by
  have hunsigned := unsigned_eq h hrest
  obtain ⟨c, ds, hn, hdigits⟩ := exists_toDigits_eq_cons n
  rw [hn, List.cons_append] at hunsigned ⊢
  obtain ⟨hr, hunsigned⟩ := hunsigned
  have hc : ¬ (c == '-') = true := by
    intro heq
    have hdigit := hdigits c List.mem_cons_self
    rw [beq_iff_eq.1 heq] at hdigit
    cases hdigit
  have htake : (c :: (ds ++ rest)).take ((c :: (ds ++ rest)).length - rest.length) = c :: ds := by
    have hlength : (c :: (ds ++ rest)).length - rest.length = (c :: ds).length := by
      simp only [List.length_cons, List.length_append]
      omega
    rw [hlength]
    exact List.take_left
  refine ⟨hr, ?_⟩
  rw [number, if_neg hc, hunsigned, Except.map, htake]

/-- A number is taken off as it is written, or it is out of range. -/
theorem answers_number (h : Numeral literal) (hrest : Ends rest) :
    Answers (∃ n < 2 ^ 64, literal = Nat.toDigits 10 n) (number (literal ++ rest)) literal
      rest := by
  cases hnumber : number (literal ++ rest) with
  | error slip =>
      refine .inr ⟨?_, slip, rfl⟩
      rintro ⟨n, hn, rfl⟩
      obtain ⟨hlt, htakes⟩ := takes_number hn hrest
      rw [hnumber] at htakes
      cases htakes
  | ok p =>
      -- the right text is left, so what has been taken is the right number
      obtain ⟨digits, r, hr⟩ := p
      obtain ⟨happend, -⟩ := number_sound _ hnumber
      have hexact : r = rest := number_exact h hrest _ hnumber
      subst hexact
      obtain rfl : literal = digits := List.append_cancel_right happend
      exact .inl ⟨hr, rfl⟩

end Numbers

section Strings

variable {c : Char} {body chars cs piece rest : List Char}

theorem takes_hex4 {a b c d : Char} {n : Nat} (h : hexValue4? a b c d = some n) (cs : List Char) :
    ∃ hlt, hex4 (a :: b :: c :: d :: cs) = .ok (n, ⟨cs, hlt⟩) := by
  refine ⟨by simp only [List.length_cons]; omega, ?_⟩
  simp only [hex4, h]

/-- A character is taken off as it is spelt, if it is not spelt as itself. -/
theorem takes_escape (h : SpellsChar c ('\\' :: piece)) (cs : List Char) :
    Takes (escape (piece ++ cs)) c cs := by
  cases h with
  | plain hquote hslash => exact absurd rfl hslash
  | @short _ e he =>
      have hu : ¬ (e == 'u') = true := by
        intro heq
        rw [beq_iff_eq.1 heq] at he
        cases he
      refine ⟨Nat.lt_succ_self _, ?_⟩
      simp only [List.cons_append, List.nil_append, escape, if_neg hu, he]
  | @code a b c d n hn htrailing hleading =>
      obtain ⟨hlt, hhex⟩ := takes_hex4 hn cs
      refine ⟨hlt.trans (Nat.lt_succ_self _), ?_⟩
      simp only [List.cons_append, List.nil_append, escape, beq_self_eq_true, if_true,
        unicodeEscape, hhex, htrailing, hleading]
      rfl
  | @pair a b c d a' b' c' d' m n hm htrailing hleading hn hpair =>
      obtain ⟨hlt, hhex⟩ := takes_hex4 hm ('\\' :: 'u' :: a' :: b' :: c' :: d' :: cs)
      obtain ⟨hlt', hhex'⟩ := takes_hex4 hn cs
      refine ⟨by simp only [List.length_cons, List.length_append]; omega, ?_⟩
      simp only [List.cons_append, List.nil_append, escape, beq_self_eq_true, if_true,
        unicodeEscape, hhex, htrailing, hleading, trailingHalf, hhex', hpair, Bool.false_eq_true,
        if_false, Except.map]

theorem takes_stringBody_of_escape {es : List Char} (he : Takes (escape es) c cs)
    (h : Takes (stringBody cs) chars rest) :
    Takes (stringBody ('\\' :: es)) (c :: chars) rest := by
  obtain ⟨hle, he⟩ := he
  obtain ⟨hlt, h⟩ := h
  refine ⟨(hlt.trans hle).trans (Nat.lt_succ_self _), ?_⟩
  rw [stringBody]
  simp only [he, h]
  rfl

/-- A character is taken off as it is spelt. -/
theorem takes_stringBody_cons (hc : SpellsChar c piece) (h : Takes (stringBody cs) chars rest) :
    Takes (stringBody (piece ++ cs)) (c :: chars) rest := by
  cases hc with
  | plain hquote hslash hcontrol =>
      obtain ⟨hlt, h⟩ := h
      rw [List.singleton_append]
      refine ⟨hlt.trans (Nat.lt_succ_self _), ?_⟩
      rw [stringBody, if_neg (by simpa using hquote), if_neg (by simpa using hslash),
        if_neg hcontrol, h]
      rfl
  | short he => exact takes_stringBody_of_escape (takes_escape (.short he) cs) h
  | code hn htrailing hleading =>
      exact takes_stringBody_of_escape (takes_escape (.code hn htrailing hleading) cs) h
  | pair hm htrailing hleading hn hpair =>
      exact takes_stringBody_of_escape (takes_escape (.pair hm htrailing hleading hn hpair) cs) h

/-- The characters of a string are taken off as they are spelt. -/
theorem takes_stringBody (h : SpellsChars chars body) (rest : List Char) :
    Takes (stringBody (body ++ '"' :: rest)) chars rest := by
  induction h with
  | nil =>
      rw [List.nil_append]
      refine ⟨Nat.lt_succ_self _, ?_⟩
      rw [stringBody]
      rfl
  | cons hc _ ih =>
      rw [List.append_assoc]
      exact takes_stringBody_cons hc ih

end Strings

/-! ## Values -/

section Values

variable {depth : Nat} {first : Bool} {c d : Char} {cs ds r t tail rest ws : List Char} {v : Json}
  {vs : List Json} {ms : List (String × Json)}

theorem skipSpace_append (hws : Spaces ws) (cs : List Char) :
    skipSpace (ws ++ cs) = skipSpace cs :=
  List.dropWhile_append_of_pos hws

theorem skipSpace_append_cons (hws : Spaces ws) (hc : isSpace c = false) (cs : List Char) :
    skipSpace (ws ++ c :: cs) = c :: cs := by
  rw [skipSpace_append hws, skipSpace, List.dropWhile_cons_of_neg (by simp [hc])]

/-- White space in front of the spelling of a value is skipped, and no more than that. -/
theorem skipSpace_append_spelling (hws : Spaces ws) (hv : Spells (.value v) t)
    (rest : List Char) : skipSpace (ws ++ (t ++ rest)) = t ++ rest := by
  obtain ⟨c, r, rfl, hc, -⟩ := hv.exists_eq_cons
  exact skipSpace_append_cons hws hc (r ++ rest)

/-- `null` and the two truth values are taken off as words. -/
theorem takes_value_constant (hv : Spells (.value v) t) (hconstant : v = .null ∨ ∃ b, v = .bool b)
    (h : skipSpace cs = t ++ rest) : Takes (value depth cs) v rest := by
  have hle := length_skipSpace_le cs
  rw [h, List.length_append] at hle
  rcases hconstant with rfl | ⟨_ | _, rfl⟩ <;> cases hv <;>
  · simp only [List.length_cons] at hle
    rw [value]
    split <;> rename_i h' <;> rw [h] at h' <;> cases h'
    exact ⟨by omega, rfl⟩

theorem answers_value_number {literal : List Char} (h : skipSpace cs = c :: r)
    (hc : c = '-' ∨ c.isDigit = true)
    (hx : Answers (∃ n < 2 ^ 64, literal = Nat.toDigits 10 n) (number (c :: r)) literal rest) :
    Answers (Legible depth (.number literal)) (value depth cs) (.number literal) rest := by
  have hle := length_skipSpace_le cs
  have hne : ∀ d : Char, d.isDigit = false → d ≠ '-' → ¬ (c == d) = true := by
    intro d hdigit hminus heq
    obtain rfl := beq_iff_eq.1 heq
    rcases hc with hc | hc
    · exact hminus hc
    · rw [hdigit] at hc
      cases hc
  have hc : (c == '-' || c.isDigit) = true := by simpa using hc
  rw [value]
  split <;> rename_i h' <;> rw [h] at h' <;> cases h'
  rw [if_neg (hne 'n' rfl (by decide)), if_neg (hne 't' rfl (by decide)),
    if_neg (hne 'f' rfl (by decide)), if_pos hc]
  exact hx.map (fun hlt => ⟨hlt.trans_le (h ▸ hle), rfl⟩) Legible.exists_eq_toDigits

theorem takes_value_string {chars : List Char} (h : skipSpace cs = '"' :: r)
    (hx : Takes (stringBody r) chars rest) :
    Takes (value depth cs) (.string (String.ofList chars)) rest := by
  obtain ⟨hlt, hx⟩ := hx
  rw [value]
  split <;> rename_i h' <;> rw [h] at h' <;> cases h'
  refine ⟨hlt.trans (length_lt_of_skipSpace h), ?_⟩
  simp [hx, Except.map]

theorem answers_value_array (h : skipSpace cs = '[' :: r)
    (hx : Answers (∀ v ∈ vs, Legible (depth - 1) v) (items (depth - 1) true r) vs rest) :
    Answers (Legible depth (.array vs)) (value depth cs) (.array vs) rest := by
  rw [value]
  split <;> rename_i h' <;> rw [h] at h' <;> cases h'
  rw [if_neg (by decide), if_neg (by decide), if_neg (by decide), if_neg (by decide),
    if_neg (by decide), if_pos (by decide)]
  split
  · rename_i hdepth
    subst hdepth
    refine .inr ⟨?_, _, rfl⟩
    intro hlegible
    cases hlegible
  · refine hx.map (fun hlt => ⟨hlt.trans (length_lt_of_skipSpace h), rfl⟩) ?_
    intro hlegible
    cases hlegible with
    | array hall => exact hall

theorem answers_value_object (h : skipSpace cs = '\x7b' :: r)
    (hx : Answers (∀ m ∈ ms, Legible (depth - 1) m.2) (members (depth - 1) true r) ms rest) :
    Answers (Legible depth (.object ms)) (value depth cs) (.object ms) rest := by
  rw [value]
  split <;> rename_i h' <;> rw [h] at h' <;> cases h'
  rw [if_neg (by decide), if_neg (by decide), if_neg (by decide), if_neg (by decide),
    if_neg (by decide), if_neg (by decide), if_pos (by decide)]
  split
  · rename_i hdepth
    subst hdepth
    refine .inr ⟨?_, _, rfl⟩
    intro hlegible
    cases hlegible
  · refine hx.map (fun hlt => ⟨hlt.trans (length_lt_of_skipSpace h), rfl⟩) ?_
    intro hlegible
    cases hlegible with
    | object hall => exact hall

/-! ### Items -/

theorem takes_items_nil (h : skipSpace cs = ']' :: rest) :
    Takes (items depth first cs) [] rest := by
  rw [items]
  split <;> rename_i h' <;> rw [h] at h' <;> cases h'
  exact ⟨length_lt_of_skipSpace h, rfl⟩

theorem answers_items_first (h : skipSpace cs = c :: r) (hc : c ≠ ']')
    (hv : Answers (Legible depth v) (value depth cs) v tail)
    (hvs : Answers (∀ w ∈ vs, Legible depth w) (items depth false tail) vs rest) :
    Answers (∀ w ∈ v :: vs, Legible depth w) (items depth true cs) (v :: vs) rest := by
  rw [items]
  split <;> rename_i h' <;> rw [h] at h' <;> cases h'
  rw [if_neg (by simpa using hc), if_pos rfl]
  rcases hv with ⟨hlt, hv⟩ | ⟨hnot, slip, hv⟩
  · rw [hv]
    exact hvs.map (fun hlt' => ⟨hlt'.trans hlt, rfl⟩) fun hall => (List.forall_mem_cons.1 hall).2
  · rw [hv]
    exact .inr ⟨fun hall => hnot (hall v List.mem_cons_self), slip, rfl⟩

theorem answers_items_next (h : skipSpace cs = ',' :: r) (hr : skipSpace r = d :: ds)
    (hd : d ≠ ']') (hv : Answers (Legible depth v) (value depth r) v tail)
    (hvs : Answers (∀ w ∈ vs, Legible depth w) (items depth false tail) vs rest) :
    Answers (∀ w ∈ v :: vs, Legible depth w) (items depth false cs) (v :: vs) rest := by
  have hd : ¬ (d == ']') = true := by simpa using hd
  have hrlt := length_lt_of_skipSpace h
  rw [items]
  split <;> rename_i h' <;> rw [h] at h' <;> cases h'
  rw [if_neg (by decide), if_neg (by decide), if_pos (by decide), hr]
  simp only [if_neg hd]
  rcases hv with ⟨hlt, hv⟩ | ⟨hnot, slip, hv⟩
  · rw [hv]
    exact hvs.map (fun hlt' => ⟨(hlt'.trans hlt).trans hrlt, rfl⟩)
      fun hall => (List.forall_mem_cons.1 hall).2
  · rw [hv]
    exact .inr ⟨fun hall => hnot (hall v List.mem_cons_self), slip, rfl⟩

/-! ### Members -/

theorem takes_colon (h : skipSpace cs = ':' :: r) : ∃ hr, colon cs = .ok ⟨r, hr⟩ := by
  unfold colon
  split <;> rename_i h' <;> rw [h] at h' <;> cases h'
  exact ⟨length_lt_of_skipSpace h, rfl⟩

theorem answers_member {key : List Char} (hkey : Takes (stringBody cs) key tail)
    (hcolon : skipSpace tail = ':' :: r) (hv : Answers (Legible depth v) (value depth r) v ds)
    (hms : Answers (∀ m ∈ ms, Legible depth m.2) (members depth false ds) ms rest) :
    Answers (∀ m ∈ (String.ofList key, v) :: ms, Legible depth m.2) (member depth cs)
      ((String.ofList key, v) :: ms) rest := by
  obtain ⟨hkeyLt, hkey⟩ := hkey
  obtain ⟨hcolonLt, hcolon⟩ := takes_colon hcolon
  rw [member]
  simp only [hkey, hcolon]
  rcases hv with ⟨hlt, hv⟩ | ⟨hnot, slip, hv⟩
  · rw [hv]
    exact hms.map (fun hlt' => ⟨((hlt'.trans hlt).trans hcolonLt).trans hkeyLt, rfl⟩)
      fun hall => (List.forall_mem_cons.1 hall).2
  · rw [hv]
    exact .inr ⟨fun hall => hnot (hall _ List.mem_cons_self), slip, rfl⟩

theorem takes_members_nil (h : skipSpace cs = '\x7d' :: rest) :
    Takes (members depth first cs) [] rest := by
  rw [members]
  split <;> rename_i h' <;> rw [h] at h' <;> cases h'
  exact ⟨length_lt_of_skipSpace h, rfl⟩

theorem answers_members_first {sure : Prop} (h : skipSpace cs = '"' :: r)
    (hms : Answers sure (member depth r) ms rest) :
    Answers sure (members depth true cs) ms rest := by
  rw [members]
  split <;> rename_i h' <;> rw [h] at h' <;> cases h'
  rw [if_neg (by decide), if_pos rfl, if_pos (by decide)]
  exact hms.map (fun hlt => ⟨hlt.trans (length_lt_of_skipSpace h), rfl⟩) id

theorem answers_members_next {sure : Prop} (h : skipSpace cs = ',' :: r)
    (hr : skipSpace r = '"' :: ds) (hms : Answers sure (member depth ds) ms rest) :
    Answers sure (members depth false cs) ms rest := by
  have hlt := (length_lt_of_skipSpace hr).trans (length_lt_of_skipSpace h)
  rw [members]
  split <;> rename_i h' <;> rw [h] at h' <;> cases h'
  rw [if_neg (by decide), if_neg (by decide), if_pos (by decide)]
  split <;> rename_i h' <;> rw [hr] at h' <;> cases h'
  rw [if_pos (by decide)]
  exact hms.map (fun hlt' => ⟨hlt'.trans hlt, rfl⟩) id

end Values

end Reader

/-! ## Texts -/

section Texts

open Reader

variable {part : Part} {v : Json} {vs : List Json} {ms : List (String × Json)}
  {t rest text : List Char}

theorem Spells.ends_items (h : Spells (.items false vs) t) (rest : List Char) :
    Ends (t ++ rest) := by
  cases h with
  | itemsEnd hws =>
      rw [List.append_assoc]
      exact .spaces_append hws (.cons _ (.inr (.inr (.inl rfl))))
  | nextItem hws =>
      rw [List.append_assoc]
      exact .spaces_append hws (.cons _ (.inr (.inl rfl)))

theorem Spells.ends_members (h : Spells (.members false ms) t) (rest : List Char) :
    Ends (t ++ rest) := by
  cases h with
  | membersEnd hws =>
      rw [List.append_assoc]
      exact .spaces_append hws (.cons _ (.inr (.inr (.inr rfl))))
  | nextMember hws =>
      rw [List.append_assoc]
      exact .spaces_append hws (.cons _ (.inr (.inl rfl)))

/-- What the reader does with a part of a text, whatever comes after it. -/
def Answered : Part → List Char → Prop
  | .value v, t => ∀ depth cs rest, skipSpace cs = t ++ rest → Ends rest →
      Answers (Legible depth v) (value depth cs) v rest
  | .items first vs, t => ∀ depth rest,
      Answers (∀ v ∈ vs, Legible depth v) (items depth first (t ++ rest)) vs rest
  | .members first ms, t => ∀ depth rest,
      Answers (∀ m ∈ ms, Legible depth m.2) (members depth first (t ++ rest)) ms rest
  | .entries ms, t => ∀ depth rest,
      Answers (∀ m ∈ ms, Legible depth m.2) (member depth (t ++ rest)) ms rest

/-- A part of a text is taken off as what it spells, or a number in it is out of range, or it is
nested too deep. -/
theorem Spells.answered (h : Spells part t) : Answered part t := by
  -- what comes after a part is the rest of the part around it, hence any text in the hypotheses
  induction h with
  | wordNull => exact fun _ _ _ hcs _ => .inl (takes_value_constant .wordNull (.inl rfl) hcs)
  | wordTrue => exact fun _ _ _ hcs _ => .inl (takes_value_constant .wordTrue (.inr ⟨_, rfl⟩) hcs)
  | wordFalse =>
      exact fun _ _ _ hcs _ => .inl (takes_value_constant .wordFalse (.inr ⟨_, rfl⟩) hcs)
  | number h =>
      intro depth cs rest hcs hrest
      have hx := answers_number h hrest
      obtain ⟨c, r, rfl, hc⟩ := h.exists_eq_cons
      exact answers_value_number hcs hc hx
  | string h =>
      intro depth cs rest hcs _
      rw [List.cons_append, List.append_assoc] at hcs
      exact .inl (takes_value_string hcs (takes_stringBody h rest))
  | array _ ih => exact fun depth cs rest hcs _ => answers_value_array hcs (ih (depth - 1) rest)
  | object _ ih => exact fun depth cs rest hcs _ => answers_value_object hcs (ih (depth - 1) rest)
  | itemsEnd hws =>
      intro depth rest
      rw [List.append_assoc]
      exact .inl (takes_items_nil (skipSpace_append_cons hws rfl rest))
  | @firstItem v vs ws b t hws hv hvs ihv ihvs =>
      intro depth rest
      have hskip := skipSpace_append_spelling hws hv (t ++ rest)
      have hvalue := ihv depth _ _ hskip (hvs.ends_items rest)
      obtain ⟨c, r, rfl, -, hc⟩ := hv.exists_eq_cons
      rw [List.append_assoc, List.append_assoc]
      exact answers_items_first hskip hc hvalue (ihvs depth rest)
  | @nextItem v vs ws ws' b t hws hws' hv hvs ihv ihvs =>
      intro depth rest
      have hskip := skipSpace_append_spelling hws' hv (t ++ rest)
      have hvalue := ihv depth _ _ hskip (hvs.ends_items rest)
      obtain ⟨c, r, rfl, -, hc⟩ := hv.exists_eq_cons
      rw [List.append_assoc, List.cons_append, List.append_assoc, List.append_assoc]
      exact answers_items_next (skipSpace_append_cons hws rfl _) hskip hc hvalue (ihvs depth rest)
  | membersEnd hws =>
      intro depth rest
      rw [List.append_assoc]
      exact .inl (takes_members_nil (skipSpace_append_cons hws rfl rest))
  | firstMember hws _ ih =>
      intro depth rest
      rw [List.append_assoc]
      exact answers_members_first (skipSpace_append_cons hws rfl _) (ih depth rest)
  | nextMember hws hws' _ ih =>
      intro depth rest
      rw [List.append_assoc, List.cons_append, List.append_assoc]
      exact answers_members_next (skipSpace_append_cons hws rfl _)
        (skipSpace_append_cons hws' rfl _) (ih depth rest)
  | @entry chars body v ms ws ws' b t hkey hws hws' hv hms ihv ihms =>
      intro depth rest
      have hskip := skipSpace_append_spelling hws' hv (t ++ rest)
      have hvalue := ihv depth _ _ hskip (hms.ends_members rest)
      rw [List.append_assoc, List.cons_append, List.append_assoc, List.cons_append,
        List.append_assoc, List.append_assoc]
      exact answers_member (takes_stringBody hkey _) (skipSpace_append_cons hws rfl _) hvalue
        (ihms depth rest)

/-- A text that holds a value is read as that value, or it is refused where its value is, and then
the value is not legible. -/
theorem readFirst_of_textOf (h : v.TextOf text) :
    (∃ rest, readFirst text = .ok (v, rest) ∧ readEnd text rest = .ok ()) ∨
      (¬ Legible depthLimit v ∧ ∃ e, readFirst text = .error e) := by
  obtain ⟨ws, b, ws', rfl, hws, hws', hb⟩ := h
  have hskip := skipSpace_append_spelling hws hb ws'
  have hends : Ends ws' := by
    intro c hc
    exact .inl (hws' c (List.mem_of_mem_head? hc))
  have hend : skipSpace ws' = [] := List.dropWhile_eq_nil_iff.2 hws'
  rcases hb.answered depthLimit _ ws' hskip hends with ⟨hlt, hvalue⟩ | ⟨hnot, slip, hvalue⟩
  · refine .inl ⟨ws', ?_, ?_⟩
    · rw [readFirst, hvalue]
    · rw [readEnd, hend]
  · refine .inr ⟨hnot, slip.inText (ws ++ (b ++ ws')), ?_⟩
    rw [readFirst, hvalue]

/-- The texts that are read as a legible value are those that hold it. -/
theorem Legible.read_eq_ok_iff (hv : Legible depthLimit v) :
    read text = .ok v ↔ v.TextOf text := by
  refine ⟨textOf_of_read, fun h => ?_⟩
  rcases readFirst_of_textOf h with ⟨rest, hfirst, hend⟩ | ⟨hnot, -⟩
  · rw [read, hfirst]
    simp only [Except.bind, hend, Except.map]
  · exact absurd hv hnot

end Texts

end ParenGap.Json
