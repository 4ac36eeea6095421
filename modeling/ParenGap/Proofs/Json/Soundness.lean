import Mathlib.Data.List.TakeWhile
import Mathlib.Tactic
import ParenGap.Proofs.Json.Grammar

/-!
# What the reader accepts

Whatever the reader takes off the front of a text spells the value that it answers with, white space
in front of it aside (`Reader.value_sound`). So a text that is read holds the value
(`textOf_of_read`).

A step of the reader may fail. What it answers with if it does not is said with `Ensures`, for one
step after the other: words, the parts of numbers, escapes, strings, and then values.
-/

set_option autoImplicit false

namespace ParenGap.Json

namespace Reader

/-- If a step answers, its answer is as it should be. -/
def Ensures {α : Type} (x : Except Slip α) (post : α → Prop) : Prop := ∀ a, x = .ok a → post a

section Steps

variable {α β : Type} {x : Except Slip α} {post : α → Prop}

theorem Ensures.error {slip : Slip} : Ensures (.error slip) post := by
  intro a ha
  cases ha

theorem Ensures.ok {a : α} (h : post a) : Ensures (.ok a) post := by
  intro b hb
  cases hb
  exact h

theorem Ensures.map {f : α → β} {post' : β → Prop} (h : Ensures x post)
    (hf : ∀ a, post a → post' (f a)) : Ensures (x.map f) post' := by
  cases x with
  | error slip => exact .error
  | ok a => exact .ok (hf a (h a rfl))

end Steps

variable {cs es : List Char} {c d : Char}

/-- White space that is skipped stands in front of what is left. -/
theorem exists_spaces (cs : List Char) : ∃ ws, cs = ws ++ skipSpace cs ∧ Spaces ws :=
  ⟨cs.takeWhile isSpace, List.takeWhile_append_dropWhile.symm, fun _ => List.mem_takeWhile_imp⟩

/-! ## Words and numbers -/

theorem word_sound : Ensures (word es cs) fun r => cs = es ++ r.val := by
  induction es generalizing cs with
  | nil => exact .ok rfl
  | cons e es ih =>
      cases cs with
      | nil => exact .error
      | cons c cs =>
          rw [word]
          split
          · rename_i hc
            obtain rfl := eq_of_beq hc
            refine ih.map fun r hr => ?_
            rw [List.cons_append, ← hr]
          · exact .error

/-- The digits at the front of a text, if there are some, and what is left. -/
theorem digits_sound {d : Char} {ds : List Char} (h : digits cs = d :: ds) :
    cs = (d :: ds) ++ (afterDigits cs).val ∧ Digits (d :: ds) := by
  rw [← h]
  refine ⟨List.takeWhile_append_dropWhile.symm, ?_, fun _ => List.mem_takeWhile_imp⟩
  rw [h]
  exact List.cons_ne_nil d ds

theorem accept_sound (n : Nat) (k : Int) : Ensures (accept n k cs) fun r => cs = r.val := by
  rw [accept]
  split
  · exact .error
  · exact .ok rfl

theorem exponentDigits_sound (n : Nat) (k : Int) (negative : Bool) :
    Ensures (exponentDigits n k negative cs) fun r => ∃ ds, cs = ds ++ r.val ∧ Digits ds := by
  simp only [exponentDigits]
  split
  · split <;> exact .error
  · rename_i d ds hds
    split
    · refine (accept_sound _ _).map fun r hr => ⟨d :: ds, ?_⟩
      rw [← hr]
      exact digits_sound hds
    · split
      · exact .error
      · exact .ok ⟨d :: ds, digits_sound hds⟩

theorem exponent_sound (n : Nat) (k : Int) :
    Ensures (exponent n k cs) fun r => ∃ e, cs = e ++ r.val ∧ Exponent e := by
  cases cs with
  | nil => exact fun r hr => ⟨[], accept_sound n k r hr, .none⟩
  | cons c r =>
      simp only [exponent]
      split
      · rename_i hc
        rw [Bool.or_eq_true, beq_iff_eq, beq_iff_eq] at hc
        split
        · exact .error
        · rename_i s t
          split
          · rename_i hs
            rw [Bool.or_eq_true, beq_iff_eq, beq_iff_eq] at hs
            have hsign : [s] = [] ∨ [s] = ['+'] ∨ [s] = ['-'] := by
              rcases hs with rfl | rfl
              · exact .inr (.inl rfl)
              · exact .inr (.inr rfl)
            refine (exponentDigits_sound _ _ _).map ?_
            intro u hu
            obtain ⟨ds, ht, hds⟩ := hu
            exact ⟨c :: s :: ds, congrArg (c :: s :: ·) ht, .some hc hsign hds⟩
          · refine (exponentDigits_sound _ _ _).map ?_
            intro u hu
            obtain ⟨ds, ht, hds⟩ := hu
            exact ⟨c :: ds, congrArg (c :: ·) ht, .some hc (.inl rfl) hds⟩
      · exact fun t ht => ⟨[], accept_sound n k t ht, .none⟩

theorem fraction_sound (n : Nat) (k : Int) :
    Ensures (fraction n k cs) fun r =>
      ∃ f e, cs = f ++ (e ++ r.val) ∧ Fraction f ∧ Exponent e := by
  have hnone : ∀ cs : List Char, Ensures (exponent n k cs) fun r =>
      ∃ f e, cs = f ++ (e ++ r.val) ∧ Fraction f ∧ Exponent e := by
    intro cs r hr
    obtain ⟨e, hcs, he⟩ := exponent_sound n k r hr
    exact ⟨[], e, hcs, .none, he⟩
  cases cs with
  | nil => exact hnone []
  | cons c r =>
      simp only [fraction]
      split
      · rename_i hc
        obtain rfl := eq_of_beq hc
        split
        · split <;> exact .error
        · rename_i d ds hds
          refine (exponent_sound _ _).map ?_
          intro t ht
          obtain ⟨e, hrest, he⟩ := ht
          obtain ⟨hr, hdigits⟩ := digits_sound hds
          rw [hrest] at hr
          exact ⟨'.' :: d :: ds, e, congrArg ('.' :: ·) hr, .some hdigits, he⟩
      · exact hnone (c :: r)

theorem unsigned_sound : Ensures (unsigned cs) fun r =>
    ∃ w f e, cs = w ++ (f ++ (e ++ r.val)) ∧ Whole w ∧ Fraction f ∧ Exponent e := by
  cases cs with
  | nil => exact .error
  | cons c r =>
      simp only [unsigned]
      split
      · rename_i hc
        obtain rfl := eq_of_beq hc
        split
        · refine (fraction_sound _ _).map ?_
          intro t ht
          obtain ⟨f, e, hr, hf, he⟩ := ht
          exact ⟨['0'], f, e, congrArg ('0' :: ·) hr, .zero, hf, he⟩
        · exact .error
      · rename_i hzero
        split
        · rename_i hdigit
          refine (fraction_sound _ _).map ?_
          intro t ht
          obtain ⟨f, e, hrest, hf, he⟩ := ht
          have hds : digits (c :: r) = c :: digits r := List.takeWhile_cons_of_pos hdigit
          obtain ⟨hr, hdigits⟩ := digits_sound hds
          have hafter : (afterDigits (c :: r)).val = (afterDigits r).val :=
            List.dropWhile_cons_of_pos hdigit
          rw [hafter, hrest] at hr
          exact ⟨c :: digits r, f, e, hr, .digits (by simpa using hzero) hdigits, hf, he⟩
        · exact .error

/-- A number is answered with as it is written. -/
theorem number_sound :
    Ensures (number cs) fun p => cs = p.1 ++ p.2.val ∧ Numeral p.1 := by
  have htake : ∀ literal rest : List Char,
      (literal ++ rest).take ((literal ++ rest).length - rest.length) = literal := by
    intro literal rest
    rw [List.length_append, Nat.add_sub_cancel, List.take_left]
  cases cs with
  | nil => exact .error
  | cons c r =>
      simp only [number]
      split
      · rename_i hc
        obtain rfl := eq_of_beq hc
        refine unsigned_sound.map ?_
        intro t ht
        obtain ⟨w, f, e, hr, hw, hf, he⟩ := ht
        have hcs : '-' :: r = (['-'] ++ (w ++ (f ++ e))) ++ t.val := by simp [hr]
        simp only [hcs, htake]
        exact ⟨trivial, .mk (.inr rfl) hw hf he⟩
      · refine unsigned_sound.map ?_
        intro t ht
        obtain ⟨w, f, e, hr, hw, hf, he⟩ := ht
        have hcs : c :: r = ([] ++ (w ++ (f ++ e))) ++ t.val := by simp [hr]
        simp only [hcs, htake]
        exact ⟨trivial, .mk (.inl rfl) hw hf he⟩

/-! ## Strings -/

theorem hex4_sound : Ensures (hex4 cs) fun p =>
    ∃ a b c d, cs = a :: b :: c :: d :: p.2.val ∧ hexValue4? a b c d = some p.1 := by
  unfold hex4
  extract_lets slip
  split
  · rename_i a b c d r
    split
    · rename_i n hn
      exact .ok ⟨a, b, c, d, rfl, hn⟩
    · exact .error
  · exact .error

theorem trailingHalf_sound (leading : Nat) : Ensures (trailingHalf leading cs) fun p =>
    ∃ a b c d n, cs = '\\' :: 'u' :: a :: b :: c :: d :: p.2.val ∧
      hexValue4? a b c d = some n ∧ isTrailing n = true ∧ p.1 = pairValue leading n := by
  unfold trailingHalf
  split
  · exact .error
  · exact .error
  · rename_i r
    split
    · exact .error
    · rename_i n t ht
      obtain ⟨a, b, c, d, hr, hn⟩ := hex4_sound _ ht
      split
      · rename_i htrailing
        have hcs := congrArg (fun t => '\\' :: 'u' :: t) hr
        refine .ok ⟨a, b, c, d, n, hcs, hn, htrailing, ?_⟩
        simp only
      · exact .error
  · exact .error
  · exact .error

theorem unicodeEscape_sound : Ensures (unicodeEscape cs) fun p =>
    ∃ piece, cs = piece ++ p.2.val ∧ SpellsChar p.1 ('\\' :: 'u' :: piece) := by
  rw [unicodeEscape]
  split
  · exact .error
  · rename_i n t ht
    obtain ⟨a, b, c, d, hcs, hn⟩ := hex4_sound _ ht
    split
    · exact .error
    · rename_i htrailing
      rw [Bool.not_eq_true] at htrailing
      split
      · rename_i hleading
        refine (trailingHalf_sound n).map ?_
        intro p hp
        obtain ⟨a', b', c', d', m, hrest, hm, hpair, hvalue⟩ := hp
        have hcs' := hcs.trans (congrArg (fun t => a :: b :: c :: d :: t) hrest)
        refine ⟨[a, b, c, d, '\\', 'u', a', b', c', d'], hcs', ?_⟩
        rw [hvalue]
        exact .pair hn htrailing hleading hm hpair
      · rename_i hleading
        rw [Bool.not_eq_true] at hleading
        exact .ok ⟨[a, b, c, d], hcs, .code hn htrailing hleading⟩

theorem escape_sound : Ensures (escape cs) fun p =>
    ∃ piece, cs = piece ++ p.2.val ∧ SpellsChar p.1 ('\\' :: piece) := by
  cases cs with
  | nil => exact .error
  | cons c r =>
      simp only [escape]
      split
      · rename_i hc
        obtain rfl := eq_of_beq hc
        refine unicodeEscape_sound.map ?_
        intro p hp
        obtain ⟨piece, hr, hpiece⟩ := hp
        exact ⟨'u' :: piece, congrArg ('u' :: ·) hr, hpiece⟩
      · split
        · rename_i d hd
          exact .ok ⟨[c], rfl, .short hd⟩
        · exact .error

/-- The characters of a string are answered with as they are spelt, up to the closing quote. -/
theorem stringBody_sound : Ensures (stringBody cs) fun p =>
    ∃ body, cs = body ++ '"' :: p.2.val ∧ SpellsChars p.1 body := by
  fun_induction stringBody cs with
  | case1 => exact .error
  | case2 c r hc =>
      obtain rfl := eq_of_beq hc
      exact .ok ⟨[], rfl, .nil⟩
  | case3 => exact .error
  | case4 c r _ hc d t ht ih =>
      obtain rfl := eq_of_beq hc
      obtain ⟨piece, hr, hpiece⟩ := escape_sound _ ht
      refine ih.map ?_
      intro p hp
      obtain ⟨body, hrest, hbody⟩ := hp
      have hcs : '\\' :: r = (('\\' :: piece) ++ body) ++ '"' :: p.2.val := by
        simp only [hr, hrest, List.cons_append, List.append_assoc]
      exact ⟨('\\' :: piece) ++ body, hcs, .cons hpiece hbody⟩
  | case5 => exact .error
  | case6 c r hquote hslash hcontrol ih =>
      refine ih.map ?_
      intro p hp
      obtain ⟨body, hr, hbody⟩ := hp
      have hc : SpellsChar c [c] := .plain (by simpa using hquote) (by simpa using hslash) hcontrol
      exact ⟨[c] ++ body, congrArg (c :: ·) hr, .cons hc hbody⟩

/-! ## Values -/

theorem colon_sound : Ensures (colon cs) fun r => ∃ ws, cs = ws ++ ':' :: r.val ∧ Spaces ws := by
  obtain ⟨ws, hcs, hws⟩ := exists_spaces cs
  unfold colon
  split
  · exact .error
  · rename_i c r h
    rw [h] at hcs
    split
    · rename_i hc
      obtain rfl := eq_of_beq hc
      exact .ok ⟨ws, hcs, hws⟩
    · exact .error

theorem length_lt_of_skipSpace {c : Char} {r : List Char} (h : skipSpace cs = c :: r) :
    r.length < cs.length := by
  have hle := length_skipSpace_le cs
  rw [h] at hle
  exact hle

-- The four theorems recurse as the reader does: each step goes on with a shorter text.

mutual

/-- What is taken off the front of a text spells the value that is answered with. -/
theorem value_sound (depth : Nat) (cs : List Char) :
    Ensures (value depth cs) fun p =>
      ∃ ws b, cs = ws ++ (b ++ p.2.val) ∧ Spaces ws ∧ Spells (.value p.1) b := by
  obtain ⟨ws, hcs, hws⟩ := exists_spaces cs
  rw [value]
  split
  · exact .error
  · rename_i c r h
    have hr : r.length < cs.length := length_lt_of_skipSpace h
    rw [h] at hcs
    -- the first character tells what the value is: a word, a number, a string, an array, an object
    split
    · rename_i hc
      obtain rfl := eq_of_beq hc
      refine word_sound.map ?_
      intro t ht
      have hcs' := hcs.trans (congrArg (ws ++ 'n' :: ·) ht)
      exact ⟨ws, ['n', 'u', 'l', 'l'], hcs', hws, .wordNull⟩
    split
    · rename_i hc
      obtain rfl := eq_of_beq hc
      refine word_sound.map ?_
      intro t ht
      have hcs' := hcs.trans (congrArg (ws ++ 't' :: ·) ht)
      exact ⟨ws, ['t', 'r', 'u', 'e'], hcs', hws, .wordTrue⟩
    split
    · rename_i hc
      obtain rfl := eq_of_beq hc
      refine word_sound.map ?_
      intro t ht
      have hcs' := hcs.trans (congrArg (ws ++ 'f' :: ·) ht)
      exact ⟨ws, ['f', 'a', 'l', 's', 'e'], hcs', hws, .wordFalse⟩
    split
    · refine number_sound.map ?_
      intro p hp
      obtain ⟨hr', hp⟩ := hp
      exact ⟨ws, p.1, hcs.trans (congrArg (ws ++ ·) hr'), hws, .number hp⟩
    split
    · rename_i hc
      obtain rfl := eq_of_beq hc
      refine stringBody_sound.map ?_
      intro p hp
      obtain ⟨body, hr', hbody⟩ := hp
      have hcs' : cs = ws ++ (('"' :: (body ++ ['"'])) ++ p.2.val) := by simp [hcs, hr']
      exact ⟨ws, _, hcs', hws, .string hbody⟩
    split
    · rename_i hc
      obtain rfl := eq_of_beq hc
      split
      · exact .error
      · refine (items_sound _ _ _).map ?_
        intro p hp
        obtain ⟨t, hr', ht⟩ := hp
        exact ⟨ws, '[' :: t, hcs.trans (congrArg (ws ++ '[' :: ·) hr'), hws, .array ht⟩
    split
    · rename_i hc
      obtain rfl := eq_of_beq hc
      split
      · exact .error
      · refine (members_sound _ _ _).map ?_
        intro p hp
        obtain ⟨t, hr', ht⟩ := hp
        exact ⟨ws, '\x7b' :: t, hcs.trans (congrArg (ws ++ '\x7b' :: ·) hr'), hws, .object ht⟩
    · exact .error
  termination_by (cs.length, 0)

theorem items_sound (depth : Nat) (first : Bool) (cs : List Char) :
    Ensures (items depth first cs) fun p =>
      ∃ t, cs = t ++ p.2.val ∧ Spells (.items first p.1) t := by
  obtain ⟨ws, hcs, hws⟩ := exists_spaces cs
  rw [items]
  split
  · exact .error
  · rename_i c r h
    have hr : r.length < cs.length := length_lt_of_skipSpace h
    rw [h] at hcs
    -- the array ends here, or its first item follows, or a comma and then another item
    split
    · rename_i hc
      obtain rfl := eq_of_beq hc
      exact .ok ⟨_, by simpa using hcs, .itemsEnd hws⟩
    split
    · rename_i hfirst
      subst hfirst
      split
      · exact .error
      · rename_i v t hv
        have ht : t.val.length < cs.length := t.property
        obtain ⟨ws', b, hcs', hws', hb⟩ := value_sound _ _ _ hv
        refine (items_sound _ _ _).map ?_
        intro p hp
        obtain ⟨u, hrest, hu⟩ := hp
        have hcs'' : cs = (ws' ++ (b ++ u)) ++ p.2.val := by
          simp only at hcs'
          simp only [hcs', hrest, List.append_assoc]
        exact ⟨_, hcs'', .firstItem hws' hb hu⟩
    split
    · rename_i hfirst hc
      obtain rfl := eq_of_beq hc
      rw [Bool.not_eq_true] at hfirst
      subst hfirst
      split
      · exact .error
      split
      · exact .error
      split
      · exact .error
      · rename_i v t hv
        have ht : t.val.length < cs.length := Nat.lt_trans t.property hr
        obtain ⟨ws', b, hr', hws', hb⟩ := value_sound _ _ _ hv
        refine (items_sound _ _ _).map ?_
        intro p hp
        obtain ⟨u, hrest, hu⟩ := hp
        have hcs' : cs = (ws ++ ',' :: (ws' ++ (b ++ u))) ++ p.2.val := by
          simp only [hcs, hr', hrest, List.append_assoc, List.cons_append]
        exact ⟨_, hcs', .nextItem hws hws' hb hu⟩
    · exact .error
  termination_by (cs.length, 1)

theorem members_sound (depth : Nat) (first : Bool) (cs : List Char) :
    Ensures (members depth first cs) fun p =>
      ∃ t, cs = t ++ p.2.val ∧ Spells (.members first p.1) t := by
  obtain ⟨ws, hcs, hws⟩ := exists_spaces cs
  rw [members]
  split
  · exact .error
  · rename_i c r h
    have hr : r.length < cs.length := length_lt_of_skipSpace h
    rw [h] at hcs
    split
    · rename_i hc
      obtain rfl := eq_of_beq hc
      exact .ok ⟨_, by simpa using hcs, .membersEnd hws⟩
    split
    · rename_i hfirst
      subst hfirst
      split
      · rename_i hc
        obtain rfl := eq_of_beq hc
        refine (member_sound _ _).map ?_
        intro p hp
        obtain ⟨t, hr', ht⟩ := hp
        have hcs' : cs = (ws ++ '"' :: t) ++ p.2.val := by simp [hcs, hr']
        exact ⟨_, hcs', .firstMember hws ht⟩
      · exact .error
    split
    · rename_i hfirst hc
      obtain rfl := eq_of_beq hc
      rw [Bool.not_eq_true] at hfirst
      subst hfirst
      obtain ⟨ws', hr', hws'⟩ := exists_spaces r
      split
      · exact .error
      · rename_i d s hs
        have hsr : s.length < cs.length := Nat.lt_trans (length_lt_of_skipSpace hs) hr
        rw [hs] at hr'
        split
        · rename_i hd
          obtain rfl := eq_of_beq hd
          refine (member_sound _ _).map ?_
          intro p hp
          obtain ⟨t, hs', ht⟩ := hp
          have hcs' : cs = (ws ++ ',' :: (ws' ++ '"' :: t)) ++ p.2.val := by simp [hcs, hr', hs']
          exact ⟨_, hcs', .nextMember hws hws' ht⟩
        split
        · exact .error
        · exact .error
    · exact .error
  termination_by (cs.length, 1)

theorem member_sound (depth : Nat) (cs : List Char) :
    Ensures (member depth cs) fun p => ∃ t, cs = t ++ p.2.val ∧ Spells (.entries p.1) t := by
  rw [member]
  split
  · exact .error
  · rename_i key afterKey hkey
    obtain ⟨body, hcs, hbody⟩ := stringBody_sound _ hkey
    split
    · exact .error
    · rename_i afterColon hcolon
      obtain ⟨ws, hkey', hws⟩ := colon_sound _ hcolon
      have h₁ : afterColon.val.length < cs.length :=
        Nat.lt_trans afterColon.property afterKey.property
      split
      · exact .error
      · rename_i v afterValue hvalue
        obtain ⟨ws', b, hcolon', hws', hb⟩ := value_sound _ _ _ hvalue
        have h₂ : afterValue.val.length < cs.length := Nat.lt_trans afterValue.property h₁
        refine (members_sound _ _ _).map ?_
        intro p hp
        obtain ⟨t, hrest, ht⟩ := hp
        have hcs' : cs = (body ++ '"' :: (ws ++ ':' :: (ws' ++ (b ++ t)))) ++ p.2.val := by
          simp only at hcs
          simp only [hcs, hkey', hcolon', hrest, List.append_assoc, List.cons_append]
        exact ⟨_, hcs', .entry hbody hws hws' hb ht⟩
  termination_by (cs.length, 0)

end

end Reader

/-- What is left of a text that ends with its value is white space. -/
theorem spaces_of_readEnd {text rest : List Char} (h : readEnd text rest = .ok ()) :
    Spaces rest := by
  obtain ⟨ws, hrest, hws⟩ := Reader.exists_spaces rest
  rw [readEnd] at h
  split at h
  · rename_i hskip
    rw [hskip, List.append_nil] at hrest
    rwa [hrest]
  · cases h

/-- A text whose value is read and that ends with it holds the value. -/
theorem textOf_of_readFirst {v : Json} {text rest : List Char}
    (h : readFirst text = .ok (v, rest)) (hend : readEnd text rest = .ok ()) : v.TextOf text := by
  rw [readFirst] at h
  split at h
  · cases h
  · rename_i u r hvalue
    cases h
    obtain ⟨ws, b, htext, hws, hb⟩ := Reader.value_sound _ _ _ hvalue
    exact ⟨ws, b, r.val, htext, hws, spaces_of_readEnd hend, hb⟩

/-- A text that is read holds the value. -/
theorem textOf_of_read {v : Json} {text : List Char} (h : read text = .ok v) : v.TextOf text := by
  rw [read] at h
  cases hfirst : readFirst text with
  | error e => simp [hfirst, Except.bind] at h
  | ok p =>
      obtain ⟨u, rest⟩ := p
      cases hend : readEnd text rest with
      | error e => simp [hfirst, hend, Except.bind, Except.map] at h
      | ok _ =>
          simp only [hfirst, hend, Except.bind, Except.map, Except.ok.injEq] at h
          subst h
          exact textOf_of_readFirst hfirst hend

end ParenGap.Json
