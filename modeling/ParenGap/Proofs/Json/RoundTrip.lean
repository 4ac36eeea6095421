import Mathlib.Tactic
import ParenGap.Json
import ParenGap.Proofs.Json.Completeness

/-!
# Reading what has been written

A value is written as one of its spellings, whatever the level of indentation is and whatever
characters its strings have (`Legible.spells_write`). So a text that holds a written value and
nothing else is read as that value (`read_write`).

The value has to be legible: its numbers are natural numbers of 64 bits, and it is nested no deeper
than the reader goes.
-/

set_option autoImplicit false

namespace ParenGap.Json

open Reader

/-- The digits of a number write it. -/
@[simp] theorem toNat?_ofNat (n : Nat) : (ofNat n).toNat? = some n := by
  have hdigits : (Nat.toDigits 10 n).all Char.isDigit = true :=
    List.all_eq_true.2 fun c => Nat.isDigit_of_mem_toDigits (by decide) le_rfl
  have hempty : (Nat.toDigits 10 n).isEmpty = false := List.isEmpty_eq_false_iff.2
    Nat.toDigits_ne_nil
  have hvalue : decimal (Nat.toDigits 10 n) = n := by
    have h := Nat.ofDigitChars_toDigits (b := 10) (n := n) (by decide) le_rfl
    simpa only [decimal, Nat.ofDigitChars, Nat.mul_comm] using h
  simp only [ofNat, toNat?, hdigits, hempty, hvalue, Bool.not_false, Bool.and_self, if_true]

/-! ## Numbers and strings -/

/-- A natural number is written as JSON has it. -/
theorem numeral_toDigits (n : Nat) : Numeral (Nat.toDigits 10 n) := by
  have hwhole : Whole (Nat.toDigits 10 n) := by
    rcases Nat.eq_zero_or_pos n with rfl | hpos
    · exact .zero
    · obtain ⟨c, ds, hn, hdigits⟩ := exists_toDigits_eq_cons n
      have hzero := head?_toDigits_ne hpos
      rw [hn] at hzero ⊢
      exact .digits (fun hc => hzero (congrArg some hc)) ⟨List.cons_ne_nil c ds, hdigits⟩
  have h : Numeral ([] ++ (Nat.toDigits 10 n ++ ([] ++ []))) := .mk (.inl rfl) hwhole .none .none
  simpa using h

theorem hexValue?_hexDigit {n : Nat} (h : n < 16) : hexValue? (hexDigit n) = some n := by
  interval_cases n <;> decide

/-- A control character is written by its code. -/
theorem spellsChar_control {c : Char} (h : c.toNat < 0x20) :
    SpellsChar c ['\\', 'u', '0', '0', hexDigit (c.toNat / 16), hexDigit (c.toNat % 16)] := by
  have hhigh := hexValue?_hexDigit (n := c.toNat / 16) (by omega)
  have hlow := hexValue?_hexDigit (n := c.toNat % 16) (by omega)
  have hvalue : hexValue4? '0' '0' (hexDigit (c.toNat / 16)) (hexDigit (c.toNat % 16)) =
      some c.toNat := by
    have hzero : hexValue? '0' = some 0 := by decide
    simp only [hexValue4?, hzero, hhigh, hlow, Option.bind_eq_bind, Option.bind_some,
      Option.pure_def, Option.some.injEq]
    omega
  have htrailing : isTrailing c.toNat = false := by
    simp only [isTrailing, Bool.and_eq_false_iff, decide_eq_false_iff_not]
    omega
  have hleading : isLeading c.toNat = false := by
    simp only [isLeading, Bool.and_eq_false_iff, decide_eq_false_iff_not]
    omega
  have hspells := SpellsChar.code hvalue htrailing hleading
  rwa [Char.ofNat_toNat] at hspells

/-- A character is written as one of its spellings. -/
theorem spellsChar_writeChar (c : Char) : SpellsChar c (writeChar c) := by
  -- seven characters have an escape of one sign, the other control characters their code
  by_cases hshort : c ∈ ['"', '\\', '\x08', '\x0c', '\n', '\r', '\t']
  · simp only [List.mem_cons, List.not_mem_nil, or_false] at hshort
    rcases hshort with rfl | rfl | rfl | rfl | rfl | rfl | rfl <;> exact .short rfl
  · simp only [List.mem_cons, List.not_mem_nil, or_false, not_or] at hshort
    by_cases hcontrol : c.toNat < 0x20
    · have hwrite : writeChar c =
          ['\\', 'u', '0', '0', hexDigit (c.toNat / 16), hexDigit (c.toNat % 16)] := by
        simp [writeChar, hshort, hcontrol]
      rw [hwrite]
      exact spellsChar_control hcontrol
    · have hwrite : writeChar c = [c] := by simp [writeChar, hshort, hcontrol]
      rw [hwrite]
      exact .plain hshort.1 hshort.2.1 hcontrol

theorem spellsChars_flatMap_writeChar (chars : List Char) :
    SpellsChars chars (chars.flatMap writeChar) := by
  induction chars with
  | nil => exact .nil
  | cons c chars ih =>
      rw [List.flatMap_cons]
      exact .cons (spellsChar_writeChar c) ih

/-! ## Values -/

section Values

variable {depth level : Nat} {t : List Char} {v : Json} {vs : List Json}
  {ms : List (String × Json)}

theorem spaces_newline (level : Nat) : Spaces (newline level) := by
  intro c hc
  rcases List.mem_cons.1 hc with rfl | hc
  · rfl
  · rw [List.eq_of_mem_replicate hc]
    rfl

/-- The items of an array after the first one are spelt, with the line of the closing bracket. -/
theorem spells_writeItems (hvs : ∀ v ∈ vs, ∀ level, Spells (.value v) (write level v))
    (level outer : Nat) :
    Spells (.items false vs) (writeItems level vs ++ (newline outer ++ [']'])) := by
  induction vs with
  | nil => exact .itemsEnd (spaces_newline outer)
  | cons v vs ih =>
      have hrest := ih fun w hw => hvs w (List.mem_cons_of_mem v hw)
      have h := Spells.nextItem spaces_nil (spaces_newline level)
        (hvs v List.mem_cons_self level) hrest
      simpa only [writeItems, List.nil_append, List.cons_append, List.append_assoc] using h

/-- A key and its value are spelt, and then the members after them. -/
theorem spells_member (key : String) (hv : Spells (.value v) (write level v))
    (hms : Spells (.members false ms) t) :
    Spells (.entries ((key, v) :: ms))
      (key.toList.flatMap writeChar ++ '"' :: ([':', ' '] ++ (write level v ++ t))) := by
  have hspace : Spaces [' '] := List.forall_mem_singleton.2 rfl
  have h := Spells.entry (spellsChars_flatMap_writeChar key.toList) spaces_nil hspace hv hms
  rwa [String.ofList_toList] at h

/-- The members of an object after the first one are spelt, with the line of the closing brace. -/
theorem spells_writeMembers (hms : ∀ m ∈ ms, ∀ level, Spells (.value m.2) (write level m.2))
    (level outer : Nat) :
    Spells (.members false ms) (writeMembers level ms ++ (newline outer ++ ['\x7d'])) := by
  induction ms with
  | nil => exact .membersEnd (spaces_newline outer)
  | cons m ms ih =>
      obtain ⟨key, v⟩ := m
      have hrest := ih fun w hw => hms w (List.mem_cons_of_mem _ hw)
      have hentry := spells_member key (hms (key, v) List.mem_cons_self level) hrest
      have h := Spells.nextMember spaces_nil (spaces_newline level) hentry
      simpa only [writeMembers, writeString, List.nil_append, List.cons_append,
        List.append_assoc] using h

/-- A legible value is written as one of its spellings. -/
theorem Legible.spells_write (h : Legible depth v) (level : Nat) :
    Spells (.value v) (write level v) := by
  induction h generalizing level with
  | null =>
      rw [write]
      exact .wordNull
  | bool b =>
      cases b
      · rw [write]
        exact .wordFalse
      · rw [write]
        exact .wordTrue
  | @number _ n _ =>
      rw [ofNat, write]
      exact .number (numeral_toDigits n)
  | string s =>
      have h := Spells.string (spellsChars_flatMap_writeChar s.toList)
      rwa [String.ofList_toList] at h
  | @array _ items _ ih =>
      cases items with
      | nil =>
          rw [write]
          exact .array (.itemsEnd spaces_nil)
      | cons v vs =>
          have hvs := spells_writeItems (fun w hw => ih w (List.mem_cons_of_mem v hw))
            (level + 1) level
          have h := Spells.array (.firstItem (spaces_newline (level + 1))
            (ih v List.mem_cons_self (level + 1)) hvs)
          simpa only [write, List.cons_append, List.append_assoc] using h
  | @object _ members _ ih =>
      cases members with
      | nil =>
          rw [write]
          exact .object (.membersEnd spaces_nil)
      | cons m ms =>
          obtain ⟨key, v⟩ := m
          have hms := spells_writeMembers (fun w hw => ih w (List.mem_cons_of_mem _ hw))
            (level + 1) level
          have hentry := spells_member key (ih (key, v) List.mem_cons_self (level + 1)) hms
          have h := Spells.object (.firstMember (spaces_newline (level + 1)) hentry)
          simpa only [write, writeString, List.cons_append, List.append_assoc,
            List.nil_append] using h

end Values

/-- What has been written is read back, on its own or on lines that end after it. -/
theorem read_write {v : Json} (h : Legible depthLimit v) (level n : Nat) :
    read (write level v ++ List.replicate n '\n') = .ok v := by
  have hspaces : Spaces (List.replicate n '\n') := by
    intro c hc
    rw [List.eq_of_mem_replicate hc]
    rfl
  have htext : v.TextOf (write level v ++ List.replicate n '\n') :=
    ⟨[], _, _, rfl, spaces_nil, hspaces, h.spells_write level⟩
  exact h.read_eq_ok_iff.2 htext

end ParenGap.Json
