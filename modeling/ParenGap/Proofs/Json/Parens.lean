import Mathlib.Tactic
import ParenGap.Proofs.Config

/-!
# Parentheses in JSON

JSON has no use for an opening parenthesis outside of strings: where a value is spelt with one, one
of its strings has it (`Spells.mem_letters`). A configuration has no string with a parenthesis, so
its text has no parenthesis (`Config.not_mem_of_read`).
-/

set_option autoImplicit false

namespace ParenGap

namespace Json

open Reader (isSpace hexValue? hexValue4? shortEscape?)

mutual

/-- The characters of the strings in a value, keys included. -/
def letters : Json → List Char
  | .string s => s.toList
  | .array items => itemLetters items
  | .object members => memberLetters members
  | _ => []

/-- The characters of the strings in the items of an array. -/
def itemLetters : List Json → List Char
  | [] => []
  | v :: vs => letters v ++ itemLetters vs

/-- The characters of the strings in the members of an object, keys included. -/
def memberLetters : List (String × Json) → List Char
  | [] => []
  | (key, v) :: ms => key.toList ++ (letters v ++ memberLetters ms)

end

/-- The characters of the strings in what a part of a text spells. -/
def Part.letters : Part → List Char
  | .value v => v.letters
  | .items _ vs => itemLetters vs
  | .members _ ms => memberLetters ms
  | .entries ms => memberLetters ms

section Numbers

variable {cs : List Char}

theorem paren_not_mem_of_all {p : Char → Bool} (h : ∀ c ∈ cs, p c = true) (hp : p '(' = false) :
    '(' ∉ cs := by
  intro hmem
  rw [h '(' hmem] at hp
  cases hp

theorem Spaces.paren_not_mem (h : Spaces cs) : '(' ∉ cs := paren_not_mem_of_all h rfl

theorem Digits.paren_not_mem (h : Digits cs) : '(' ∉ cs := paren_not_mem_of_all h.all rfl

theorem Numeral.paren_not_mem (h : Numeral cs) : '(' ∉ cs := by
  obtain ⟨hsign, hwhole, hfraction, hexponent⟩ := h
  simp only [List.mem_append, not_or]
  refine ⟨?_, ?_, ?_, ?_⟩
  · rcases hsign with rfl | rfl <;> decide
  · cases hwhole with
    | zero => decide
    | digits _ h => exact h.paren_not_mem
  · cases hfraction with
    | none => exact List.not_mem_nil
    | some h => simpa using h.paren_not_mem
  · cases hexponent with
    | none => exact List.not_mem_nil
    | some he hsign h =>
        have h := h.paren_not_mem
        rcases he with rfl | rfl <;> rcases hsign with rfl | rfl | rfl <;> simpa using h

end Numbers

section Strings

variable {c : Char} {piece chars body : List Char}

theorem ne_paren_of_hexValue4? {a b c d : Char} {n : Nat} (h : hexValue4? a b c d = some n) :
    a ≠ '(' ∧ b ≠ '(' ∧ c ≠ '(' ∧ d ≠ '(' := by
  have hparen : hexValue? '(' = none := by decide
  refine ⟨?_, ?_, ?_, ?_⟩ <;> rintro rfl <;> simp [hexValue4?, hparen] at h

/-- The parenthesis is only ever written as itself. -/
theorem SpellsChar.eq_paren (h : SpellsChar c piece) (hmem : '(' ∈ piece) : c = '(' := by
  cases h with
  | plain => exact (List.mem_singleton.1 hmem).symm
  | @short _ e he =>
      obtain rfl : '(' = e := by simpa using hmem
      cases he
  -- a parenthesis is no hexadecimal digit
  | code hn =>
      obtain ⟨ha, hb, hc, hd⟩ := ne_paren_of_hexValue4? hn
      simp [ha.symm, hb.symm, hc.symm, hd.symm] at hmem
  | pair hm _ _ hn =>
      obtain ⟨ha, hb, hc, hd⟩ := ne_paren_of_hexValue4? hm
      obtain ⟨ha', hb', hc', hd'⟩ := ne_paren_of_hexValue4? hn
      simp [ha.symm, hb.symm, hc.symm, hd.symm, ha'.symm, hb'.symm, hc'.symm, hd'.symm] at hmem

theorem SpellsChars.mem_of_mem (h : SpellsChars chars body) (hmem : '(' ∈ body) :
    '(' ∈ chars := by
  induction h with
  | nil => exact hmem
  | cons hc _ ih =>
      rcases List.mem_append.1 hmem with hmem | hmem
      · rw [hc.eq_paren hmem]
        exact List.mem_cons_self
      · exact List.mem_cons_of_mem _ (ih hmem)

end Strings

/-- A parenthesis in the spelling of a value stands in one of its strings. -/
theorem Spells.mem_letters {part : Part} {t : List Char} (h : Spells part t) (hmem : '(' ∈ t) :
    '(' ∈ part.letters := by
  induction h with
  | wordNull | wordTrue | wordFalse => simp at hmem
  | number h => exact absurd hmem h.paren_not_mem
  | @string chars body h =>
      have hbody : '(' ∈ body := by simpa using hmem
      simpa [Part.letters, letters] using h.mem_of_mem hbody
  | array _ ih => exact ih (by simpa using hmem)
  | object _ ih => exact ih (by simpa using hmem)
  | itemsEnd hws => simp [hws.paren_not_mem] at hmem
  | @firstItem v vs ws b t hws _ _ ihv ihvs =>
      have hmem : '(' ∈ b ∨ '(' ∈ t := by simpa [hws.paren_not_mem] using hmem
      exact List.mem_append.2 (hmem.imp ihv ihvs)
  | @nextItem v vs ws ws' b t hws hws' _ _ ihv ihvs =>
      have hmem : '(' ∈ b ∨ '(' ∈ t := by
        simpa [hws.paren_not_mem, hws'.paren_not_mem] using hmem
      exact List.mem_append.2 (hmem.imp ihv ihvs)
  | membersEnd hws => simp [hws.paren_not_mem] at hmem
  | firstMember hws _ ih => exact ih (by simpa [hws.paren_not_mem] using hmem)
  | nextMember hws hws' _ ih =>
      exact ih (by simpa [hws.paren_not_mem, hws'.paren_not_mem] using hmem)
  | @entry chars body v ms ws ws' b t hkey hws hws' _ _ ihv ihms =>
      have hmem : '(' ∈ body ∨ '(' ∈ b ∨ '(' ∈ t := by
        simpa [hws.paren_not_mem, hws'.paren_not_mem] using hmem
      have hchars : '(' ∈ body → '(' ∈ (String.ofList chars).toList := by
        rw [String.toList_ofList]
        exact hkey.mem_of_mem
      exact List.mem_append.2 (hmem.imp hchars fun hmem => List.mem_append.2 (hmem.imp ihv ihms))

/-- If no string of a value has a parenthesis, no text of the value has one. -/
theorem TextOf.paren_not_mem {v : Json} {text : List Char} (h : v.TextOf text)
    (hv : '(' ∉ v.letters) : '(' ∉ text := by
  obtain ⟨ws, b, ws', rfl, hws, hws', hb⟩ := h
  simp only [List.mem_append, not_or]
  exact ⟨hws.paren_not_mem, fun hmem => hv (hb.mem_letters hmem), hws'.paren_not_mem⟩

end Json

namespace Config

open Json (letters itemLetters memberLetters)

variable {v : Json} {policy : Policy}

theorem Names.paren_not_mem (h : Names v policy) : '(' ∉ v.letters := by
  cases h <;> cases policy <;> decide

/-- No string of a value that stands for a configuration has a parenthesis. -/
theorem Shape.paren_not_mem (h : Shape v policy) : '(' ∉ v.letters := by
  cases h with
  | emptyObject => decide
  | object h => simpa [letters, memberLetters] using h.paren_not_mem
  | emptyArray => decide
  | array h => simpa [letters, itemLetters] using h.paren_not_mem

/-- The text of a configuration has no opening parenthesis. -/
theorem not_mem_of_read {text : List Char} {config : Config} (h : Config.read text = .ok config) :
    '(' ∉ text := by
  obtain ⟨v, htext, hshape⟩ := exists_shape_of_read h
  exact htext.paren_not_mem hshape.paren_not_mem

end Config

end ParenGap
