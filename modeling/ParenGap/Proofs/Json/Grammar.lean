import Mathlib.Tactic
import ParenGap.Json.Reader

/-!
# The grammar of JSON

Which characters spell a value, said without the reader: numbers in the parts that they have,
strings character by character, each as itself or as one of its escapes, arrays and objects with
white space around their items. A value has many spellings; `TextOf` says which texts hold one and
nothing else.

Of a spelling it is needed what it starts with: no white space, and no bracket that ends an array
(`Spells.exists_eq_cons`).
-/

set_option autoImplicit false

namespace ParenGap.Json

open Reader (isSpace hexValue4? isLeading isTrailing pairValue shortEscape?)

/-- White space, or nothing. -/
def Spaces (ws : List Char) : Prop := ∀ c ∈ ws, isSpace c = true

/-! ## Numbers -/

/-- Some digits. -/
structure Digits (ds : List Char) : Prop where
  ne_nil : ds ≠ []
  all : ∀ c ∈ ds, c.isDigit = true

/-- The whole part of a number: zero, or digits of which the first is not zero. -/
inductive Whole : List Char → Prop
  | zero : Whole ['0']
  | digits {d : Char} {ds : List Char} (hd : d ≠ '0') (h : Digits (d :: ds)) : Whole (d :: ds)

/-- The fraction of a number, if it has one. -/
inductive Fraction : List Char → Prop
  | none : Fraction []
  | some {ds : List Char} (h : Digits ds) : Fraction ('.' :: ds)

/-- The exponent of a number, if it has one. -/
inductive Exponent : List Char → Prop
  | none : Exponent []
  | some {e : Char} {sign ds : List Char} (he : e = 'e' ∨ e = 'E')
      (hsign : sign = [] ∨ sign = ['+'] ∨ sign = ['-']) (h : Digits ds) :
      Exponent (e :: (sign ++ ds))

/-- A number. -/
inductive Numeral : List Char → Prop
  | mk {sign whole fraction exponent : List Char} (hsign : sign = [] ∨ sign = ['-'])
      (hwhole : Whole whole) (hfraction : Fraction fraction) (hexponent : Exponent exponent) :
      Numeral (sign ++ (whole ++ (fraction ++ exponent)))

/-! ## Strings -/

/-- How a character of a string may be written: as itself, as a backslash and a letter or sign, by
its code in four hexadecimal digits, or by the two halves of a surrogate pair. -/
inductive SpellsChar : Char → List Char → Prop
  | plain {c : Char} (hquote : c ≠ '"') (hslash : c ≠ '\\') (hcontrol : ¬ c.toNat < 0x20) :
      SpellsChar c [c]
  | short {c e : Char} (h : shortEscape? e = some c) : SpellsChar c ['\\', e]
  | code {a b c d : Char} {n : Nat} (h : hexValue4? a b c d = some n)
      (htrailing : isTrailing n = false) (hleading : isLeading n = false) :
      SpellsChar (Char.ofNat n) ['\\', 'u', a, b, c, d]
  | pair {a b c d a' b' c' d' : Char} {m n : Nat} (hm : hexValue4? a b c d = some m)
      (htrailing : isTrailing m = false) (hleading : isLeading m = true)
      (hn : hexValue4? a' b' c' d' = some n) (hpair : isTrailing n = true) :
      SpellsChar (pairValue m n) ['\\', 'u', a, b, c, d, '\\', 'u', a', b', c', d']

/-- How the characters of a string may be written, one after the other. -/
inductive SpellsChars : List Char → List Char → Prop
  | nil : SpellsChars [] []
  | cons {c : Char} {piece chars body : List Char} (h : SpellsChar c piece)
      (hs : SpellsChars chars body) : SpellsChars (c :: chars) (piece ++ body)

/-! ## Values -/

/-- The parts of a text that spell something: a value, what is left of an array or an object with
its closing bracket or brace, all but the first item or member following a comma, and what is left
of an object behind the quote that opens the next key. -/
inductive Part
  | value (v : Json)
  | items (first : Bool) (vs : List Json)
  | members (first : Bool) (ms : List (String × Json))
  | entries (ms : List (String × Json))

/-- How the parts of a text may be written. -/
inductive Spells : Part → List Char → Prop
  | wordNull : Spells (.value .null) ['n', 'u', 'l', 'l']
  | wordTrue : Spells (.value (.bool true)) ['t', 'r', 'u', 'e']
  | wordFalse : Spells (.value (.bool false)) ['f', 'a', 'l', 's', 'e']
  | number {literal : List Char} (h : Numeral literal) : Spells (.value (.number literal)) literal
  | string {chars body : List Char} (h : SpellsChars chars body) :
      Spells (.value (.string (String.ofList chars))) ('"' :: (body ++ ['"']))
  | array {vs : List Json} {t : List Char} (h : Spells (.items true vs) t) :
      Spells (.value (.array vs)) ('[' :: t)
  | object {ms : List (String × Json)} {t : List Char} (h : Spells (.members true ms) t) :
      Spells (.value (.object ms)) ('\x7b' :: t)
  | itemsEnd {first : Bool} {ws : List Char} (hws : Spaces ws) :
      Spells (.items first []) (ws ++ [']'])
  | firstItem {v : Json} {vs : List Json} {ws b t : List Char} (hws : Spaces ws)
      (hv : Spells (.value v) b) (hvs : Spells (.items false vs) t) :
      Spells (.items true (v :: vs)) (ws ++ (b ++ t))
  | nextItem {v : Json} {vs : List Json} {ws ws' b t : List Char} (hws : Spaces ws)
      (hws' : Spaces ws') (hv : Spells (.value v) b) (hvs : Spells (.items false vs) t) :
      Spells (.items false (v :: vs)) (ws ++ ',' :: (ws' ++ (b ++ t)))
  | membersEnd {first : Bool} {ws : List Char} (hws : Spaces ws) :
      Spells (.members first []) (ws ++ ['\x7d'])
  | firstMember {ms : List (String × Json)} {ws t : List Char} (hws : Spaces ws)
      (hms : Spells (.entries ms) t) : Spells (.members true ms) (ws ++ '"' :: t)
  | nextMember {ms : List (String × Json)} {ws ws' t : List Char} (hws : Spaces ws)
      (hws' : Spaces ws') (hms : Spells (.entries ms) t) :
      Spells (.members false ms) (ws ++ ',' :: (ws' ++ '"' :: t))
  | entry {chars body : List Char} {v : Json} {ms : List (String × Json)}
      {ws ws' b t : List Char} (hkey : SpellsChars chars body) (hws : Spaces ws)
      (hws' : Spaces ws') (hv : Spells (.value v) b) (hms : Spells (.members false ms) t) :
      Spells (.entries ((String.ofList chars, v) :: ms))
        (body ++ '"' :: (ws ++ ':' :: (ws' ++ (b ++ t))))

/-- A text holds a value and nothing else, white space around it aside. -/
def TextOf (v : Json) (text : List Char) : Prop :=
  ∃ ws b ws' : List Char, text = ws ++ (b ++ ws') ∧ Spaces ws ∧ Spaces ws' ∧ Spells (.value v) b

section Lemmas

theorem spaces_nil : Spaces [] := List.forall_mem_nil _

variable {v : Json} {b literal : List Char}

theorem isDigit_ne {c d : Char} (hc : c.isDigit = true) (hd : d.isDigit = false) : c ≠ d := by
  rintro rfl
  rw [hd] at hc
  cases hc

theorem isSpace_of_isDigit {c : Char} (hc : c.isDigit = true) : isSpace c = false := by
  simp only [isSpace, Bool.or_eq_false_iff, beq_eq_false_iff_ne]
  exact ⟨⟨⟨isDigit_ne hc rfl, isDigit_ne hc rfl⟩, isDigit_ne hc rfl⟩, isDigit_ne hc rfl⟩

/-- The whole part of a number starts with a digit. -/
theorem Whole.exists_eq_cons {w : List Char} (h : Whole w) :
    ∃ d ds, w = d :: ds ∧ d.isDigit = true := by
  cases h with
  | zero => exact ⟨'0', [], rfl, rfl⟩
  | digits hd hds => exact ⟨_, _, rfl, hds.all _ List.mem_cons_self⟩

/-- A number starts with a digit or a minus sign. -/
theorem Numeral.exists_eq_cons (h : Numeral literal) :
    ∃ c r, literal = c :: r ∧ (c = '-' ∨ c.isDigit = true) := by
  obtain ⟨rfl | rfl, hwhole, -, -⟩ := h
  · obtain ⟨d, ds, rfl, hd⟩ := hwhole.exists_eq_cons
    exact ⟨d, _, rfl, .inr hd⟩
  · exact ⟨'-', _, rfl, .inl rfl⟩

/-- The spelling of a value starts with neither white space nor the bracket that ends an array. -/
theorem Spells.exists_eq_cons (h : Spells (.value v) b) :
    ∃ c r, b = c :: r ∧ isSpace c = false ∧ c ≠ ']' := by
  cases h with
  | wordNull => exact ⟨'n', _, rfl, rfl, by decide⟩
  | wordTrue => exact ⟨'t', _, rfl, rfl, by decide⟩
  | wordFalse => exact ⟨'f', _, rfl, rfl, by decide⟩
  | number h =>
      obtain ⟨c, r, rfl, rfl | hc⟩ := h.exists_eq_cons
      · exact ⟨'-', r, rfl, rfl, by decide⟩
      · exact ⟨c, r, rfl, isSpace_of_isDigit hc, isDigit_ne hc rfl⟩
  | string => exact ⟨'"', _, rfl, rfl, by decide⟩
  | array => exact ⟨'[', _, rfl, rfl, by decide⟩
  | object => exact ⟨'\x7b', _, rfl, rfl, by decide⟩

/-- Characters that need no escape spell themselves. -/
theorem spellsChars_self {chars : List Char}
    (h : ∀ c ∈ chars, c ≠ '"' ∧ c ≠ '\\' ∧ ¬ c.toNat < 0x20) : SpellsChars chars chars := by
  induction chars with
  | nil => exact .nil
  | cons c chars ih =>
      obtain ⟨⟨hquote, hslash, hcontrol⟩, hchars⟩ := List.forall_mem_cons.1 h
      exact .cons (.plain hquote hslash hcontrol) (ih hchars)

end Lemmas

end ParenGap.Json
