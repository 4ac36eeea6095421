import Mathlib.Data.List.DropRight
import ParenGap.Text

/-!
# Slices and white space

What lies between two places of a text, and what is left of a text without the white space at its
end.
-/

set_option autoImplicit false

namespace ParenGap.Text

/-! ## Places and slices

An offset is a place of a text if the text can be cut there. A slice between two places is a middle
part of the text (`slice?_eq_some_iff`), so slices join and are determined by their ends
(`slice?_append`, `append_inj_of_byteLength`). Two places in order always have a slice
(`IsPlace.exists_slice?`).
-/

/-- A place of a text: an offset that falls between two characters, or at an end. -/
def IsPlace (cs : List Char) (n : Nat) : Prop :=
  ∃ before after : List Char, cs = before ++ after ∧ byteLength before = n

section Lemmas

variable {cs as bs ds t u : List Char} {m n k : Nat}

theorem byteLength_eq_zero_iff : byteLength cs = 0 ↔ cs = [] := by
  cases cs with
  | nil => simp
  | cons c cs =>
      have hpos : 0 < c.utf8Size := Char.utf8Size_pos c
      simp only [byteLength_cons, reduceCtorEq, iff_false]
      omega

/-- The parts of a cut are determined by the length of the first one. -/
theorem append_inj_of_byteLength {as' bs' : List Char} (h : as ++ bs = as' ++ bs')
    (hlen : byteLength as = byteLength as') : as = as' ∧ bs = bs' := by
  have hcut := cut?_byteLength as bs
  rw [h, hlen, cut?_byteLength] at hcut
  simp only [Option.some.injEq, Prod.mk.injEq] at hcut
  exact ⟨hcut.1.symm, hcut.2.symm⟩

theorem isPlace_iff_cut? : IsPlace cs n ↔ (cut? cs n).isSome = true := by
  constructor
  · rintro ⟨before, after, rfl, rfl⟩
    simp [cut?_byteLength]
  · intro h
    obtain ⟨⟨before, after⟩, hcut⟩ := Option.isSome_iff_exists.1 h
    exact ⟨before, after, cut?_eq_some_append hcut⟩

theorem IsPlace.zero (cs : List Char) : IsPlace cs 0 := ⟨[], cs, rfl, rfl⟩

theorem IsPlace.last (cs : List Char) : IsPlace cs (byteLength cs) :=
  ⟨cs, [], (List.append_nil cs).symm, rfl⟩

theorem IsPlace.le_byteLength (h : IsPlace cs n) : n ≤ byteLength cs := by
  obtain ⟨before, after, rfl, rfl⟩ := h
  simp

/-- A later cut falls into the second part of an earlier one. -/
theorem exists_middle_of_le {as' bs' : List Char} (h : as ++ bs = as' ++ bs')
    (hlen : byteLength as ≤ byteLength as') : ∃ mid, as' = as ++ mid ∧ bs = mid ++ bs' := by
  rcases List.append_eq_append_iff.1 h with ⟨mid, has, hbs⟩ | ⟨mid, has, hbs⟩
  · exact ⟨mid, has, hbs⟩
  · -- the other order is possible only if nothing lies between the two cuts
    have hmid : mid = [] := byteLength_eq_zero_iff.1 (by rw [has, byteLength_append] at hlen; omega)
    subst hmid
    exact ⟨[], by simpa using has.symm, by simpa using hbs.symm⟩

/-- A slice is a middle part of the text. -/
theorem slice?_eq_some_iff :
    slice? cs m n = some t ↔ ∃ before after : List Char,
      cs = before ++ (t ++ after) ∧ byteLength before = m ∧ m + byteLength t = n := by
  constructor
  · intro h
    rw [slice?] at h
    split at h
    · rename_i hle
      obtain ⟨⟨before, rest⟩, hcut, h⟩ := Option.bind_eq_some_iff.1 h
      obtain ⟨⟨mid, after⟩, hcut', rfl⟩ := Option.map_eq_some_iff.1 h
      obtain ⟨rfl, hbefore⟩ := cut?_eq_some_append hcut
      obtain ⟨hrest, hmid⟩ := cut?_eq_some_append hcut'
      simp only at hrest hmid ⊢
      exact ⟨before, after, by rw [hrest], hbefore, by omega⟩
    · simp at h
  · rintro ⟨before, after, rfl, rfl, rfl⟩
    rw [slice?, if_pos (Nat.le_add_right _ _), cut?_byteLength, Option.bind_some,
      Nat.add_sub_cancel_left, cut?_byteLength, Option.map_some]

theorem add_byteLength_of_slice? (h : slice? cs m n = some t) : m + byteLength t = n := by
  obtain ⟨-, -, -, -, hlen⟩ := slice?_eq_some_iff.1 h
  exact hlen

theorem isPlace_of_slice? (h : slice? cs m n = some t) : IsPlace cs m ∧ IsPlace cs n := by
  obtain ⟨before, after, rfl, rfl, rfl⟩ := slice?_eq_some_iff.1 h
  exact ⟨⟨before, t ++ after, rfl, rfl⟩, ⟨before ++ t, after, by simp, by simp⟩⟩

/-- Two places in order have a slice between them. -/
theorem IsPlace.exists_slice? (hm : IsPlace cs m) (hn : IsPlace cs n) (hle : m ≤ n) :
    ∃ t, slice? cs m n = some t := by
  obtain ⟨before, after, rfl, rfl⟩ := hm
  obtain ⟨before', after', heq, rfl⟩ := hn
  obtain ⟨mid, rfl, rfl⟩ := exists_middle_of_le heq hle
  exact ⟨mid, slice?_eq_some_iff.2 ⟨before, after', rfl, rfl, by simp⟩⟩

/-- Slices that touch join. -/
theorem slice?_append (h : slice? cs m n = some t) (h' : slice? cs n k = some u) :
    slice? cs m k = some (t ++ u) := by
  obtain ⟨before, after, rfl, rfl, rfl⟩ := slice?_eq_some_iff.1 h
  obtain ⟨before', after', heq, hlen, rfl⟩ := slice?_eq_some_iff.1 h'
  have hsplit : (before ++ t) ++ after = before' ++ (u ++ after') := by simpa using heq
  have hparts := append_inj_of_byteLength hsplit (by simp [hlen])
  refine slice?_eq_some_iff.2 ⟨before, after', ?_, rfl, ?_⟩
  · rw [hparts.2, List.append_assoc]
  · simp only [byteLength_append]
    omega

theorem slice?_self (h : IsPlace cs n) : slice? cs n n = some [] := by
  obtain ⟨before, after, rfl, rfl⟩ := h
  exact slice?_eq_some_iff.2 ⟨before, after, rfl, rfl, rfl⟩

/-- What stands after a first part is the slice from its end to the end of the text. -/
theorem slice?_byteLength_append (before after : List Char) :
    slice? (before ++ after) (byteLength before) (byteLength (before ++ after)) = some after :=
  slice?_eq_some_iff.2 ⟨before, [], by simp, rfl, by simp⟩

theorem slice?_zero_byteLength (cs : List Char) : slice? cs 0 (byteLength cs) = some cs :=
  slice?_eq_some_iff.2 ⟨[], [], by simp, rfl, Nat.zero_add _⟩

end Lemmas

/-! ## White space at the end of a text

A text is its trimmed form with white space after it (`exists_blanks`), and the trimmed form is the
only beginning of the text that is followed by white space and does not end with it
(`trimEnd_eq_iff`).
-/

/-- The text does not end with white space. -/
def Trimmed (cs : List Char) : Prop := ∀ c, cs.getLast? = some c → isBlank c = false

section Lemmas

variable {cs code : List Char}

-- `trimEnd` is `List.rdropWhile isBlank`, as the library defines it, so the library's lemmas apply

/-- Only white space is taken away. -/
theorem exists_blanks (cs : List Char) :
    ∃ blanks, cs = trimEnd cs ++ blanks ∧ ∀ c ∈ blanks, isBlank c = true :=
  ⟨cs.rtakeWhile isBlank, List.rdropWhile_append_rtakeWhile.symm, fun _ => List.mem_rtakeWhile_imp⟩

theorem trimmed_trimEnd (cs : List Char) : Trimmed (trimEnd cs) := by
  intro c hlast
  obtain ⟨hne, rfl⟩ := List.mem_getLast?_eq_getLast hlast
  exact Bool.eq_false_iff.2 (List.rdropWhile_last_not isBlank cs hne)

theorem Trimmed.trimEnd_eq (h : Trimmed cs) : trimEnd cs = cs := by
  refine List.rdropWhile_eq_self_iff.2 fun hne => ?_
  rw [h _ (List.getLast?_eq_some_getLast hne)]
  exact Bool.false_ne_true

/-- White space after a text is taken away with the white space at its end. -/
theorem trimEnd_append {blanks : List Char} (h : ∀ c ∈ blanks, isBlank c = true) :
    trimEnd (cs ++ blanks) = trimEnd cs := by
  rw [trimEnd, trimEnd, List.reverse_append, List.dropWhile_append_of_pos]
  intro c hc
  exact h c (List.mem_reverse.1 hc)

/-- The trimmed form of a text is what stands before the white space at its end. -/
theorem trimEnd_eq_iff :
    trimEnd cs = code ↔
      Trimmed code ∧ ∃ blanks, cs = code ++ blanks ∧ ∀ c ∈ blanks, isBlank c = true := by
  constructor
  · rintro rfl
    exact ⟨trimmed_trimEnd cs, exists_blanks cs⟩
  · rintro ⟨htrimmed, blanks, rfl, hblanks⟩
    rw [trimEnd_append hblanks, htrimmed.trimEnd_eq]

end Lemmas

end ParenGap.Text
