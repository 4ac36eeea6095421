/-!
# Texts

A text is a list of characters. It is cut by the byte offsets of its UTF-8 form (`Text.cut?`,
`Text.slice?`), a stretch of it is a span of bytes, and its lines are found at its newline
characters.
-/

set_option autoImplicit false

namespace ParenGap.Text

/-! ## Byte offsets into a text

A text is a list of characters, and a place in it is an offset that counts the bytes of its UTF-8
form. An offset inside a character, or past the end, names no place. `cut?` splits a text at an
offset and `slice?` takes out what lies between two; both answer `none` where an offset names no
place, so that a read outside of the text is a value and not an accident.

The main statements say that a cut loses nothing (`cut?_eq_some_append`) and that it is found
exactly at the places (`cut?_eq_some_iff`).
-/

/-- Number of bytes of a text in UTF-8. -/
def byteLength : List Char → Nat
  | [] => 0
  | c :: cs => c.utf8Size + byteLength cs

/-- The text before the offset `n` and the text from it on, if `n` is a place in the text. -/
def cut? : List Char → Nat → Option (List Char × List Char)
  | cs, 0 => some ([], cs)
  | [], _ + 1 => none
  | c :: cs, n + 1 =>
      if c.utf8Size ≤ n + 1 then
        (cut? cs (n + 1 - c.utf8Size)).map fun p => (c :: p.1, p.2)
      else
        none

/-- The text between two offsets, if both are places in the text and in order. -/
def slice? (cs : List Char) (start stop : Nat) : Option (List Char) :=
  if start ≤ stop then
    (cut? cs start).bind fun p => (cut? p.2 (stop - start)).map Prod.fst
  else
    none

section Lemmas

variable {cs as bs : List Char} {n : Nat}

@[simp] theorem byteLength_nil : byteLength [] = 0 := rfl

@[simp] theorem byteLength_cons (c : Char) (cs : List Char) :
    byteLength (c :: cs) = c.utf8Size + byteLength cs := rfl

@[simp] theorem byteLength_append (as bs : List Char) :
    byteLength (as ++ bs) = byteLength as + byteLength bs := by
  induction as with
  | nil => simp
  | cons a as ih => simp [ih, Nat.add_assoc]

@[simp] theorem cut?_zero (cs : List Char) : cut? cs 0 = some ([], cs) := by
  cases cs <;> rfl

/-- Every place is found: the cut at the length of a first part gives the two parts. -/
theorem cut?_byteLength (as bs : List Char) :
    cut? (as ++ bs) (byteLength as) = some (as, bs) := by
  induction as with
  | nil => simp
  | cons a as ih =>
      have hpos : 0 < a.utf8Size := Char.utf8Size_pos a
      obtain ⟨m, hm⟩ : ∃ m, a.utf8Size + byteLength as = m + 1 :=
        ⟨a.utf8Size + byteLength as - 1, by omega⟩
      have hrest : m + 1 - a.utf8Size = byteLength as := by omega
      rw [List.cons_append, byteLength_cons, hm, cut?, if_pos (by omega), hrest, ih]
      rfl

/-- A cut loses nothing and falls where it was asked for. -/
theorem cut?_eq_some_append (h : cut? cs n = some (as, bs)) :
    cs = as ++ bs ∧ byteLength as = n := by
  induction cs generalizing n as bs with
  | nil =>
      cases n with
      | zero => simp_all [cut?]
      | succ n => simp [cut?] at h
  | cons c cs ih =>
      cases n with
      | zero =>
          rw [cut?_zero, Option.some.injEq, Prod.mk.injEq] at h
          simp [← h.1, h.2]
      | succ n =>
          rw [cut?] at h
          split at h
          · obtain ⟨⟨as', bs'⟩, hcut, heq⟩ := Option.map_eq_some_iff.1 h
            rw [Prod.mk.injEq] at heq
            obtain ⟨hcs, hlen⟩ := ih hcut
            refine ⟨by rw [← heq.1, ← heq.2, hcs]; rfl, ?_⟩
            rw [← heq.1, byteLength_cons, hlen]
            omega
          · simp at h

/-- The cuts of a text are its splits into two parts. -/
theorem cut?_eq_some_iff : cut? cs n = some (as, bs) ↔ cs = as ++ bs ∧ byteLength as = n := by
  refine ⟨cut?_eq_some_append, ?_⟩
  rintro ⟨rfl, rfl⟩
  exact cut?_byteLength as bs

end Lemmas

end ParenGap.Text

namespace ParenGap

/-! ## Spans of bytes

A span is a pair of byte offsets into a text. Offsets count the bytes of the text's UTF-8 form.
Nothing forces `start ≤ stop`: a span with `stop < start` is inverted, it covers nothing, and it is
shown as it is.
-/

/-- The bytes from `start` up to, but not including, `stop`. -/
structure Span where
  start : Nat
  stop : Nat
  deriving DecidableEq, Repr, Inhabited

namespace Span

/-- A span that covers no byte; an inverted one counts as empty. -/
def isEmpty (s : Span) : Bool := decide (s.stop ≤ s.start)

/-- Number of bytes covered, `0` for an inverted span. -/
def length (s : Span) : Nat := s.stop - s.start

end Span

end ParenGap

namespace ParenGap.Text

/-! ## White space

The characters with the Unicode property `White_Space`. The zero-width characters U+200B, U+2060
and U+FEFF are not among them.
-/

/-- The Unicode property `White_Space`. -/
def isBlank (c : Char) : Bool :=
  let n := c.toNat
  (0x9 ≤ n && n ≤ 0xD) || n == 0x20 || n == 0x85 || n == 0xA0 || n == 0x1680 ||
    (0x2000 ≤ n && n ≤ 0x200A) || n == 0x2028 || n == 0x2029 || n == 0x202F || n == 0x205F ||
    n == 0x3000

/-- A text without the white space at its end. -/
def trimEnd (cs : List Char) : List Char :=
  (cs.reverse.dropWhile isBlank).reverse

/-! ## Lines of a text

A text is cut into lines at its newline characters. A line is kept without its newline, together
with the byte offset at which it starts. A newline at the very end of a text opens no further line,
and the empty text has no line.
-/

/-- A line without its newline, and the byte offset at which it starts. -/
structure Line where
  text : List Char
  start : Nat
  deriving DecidableEq, Repr, Inhabited

/-- A text up to its first newline. -/
def firstLine (cs : List Char) : List Char := cs.takeWhile (· != '\n')

/-- A text after its first newline, if there is one. -/
def afterFirstLine? (cs : List Char) : Option (List Char) := (cs.dropWhile (· != '\n')).tail?

theorem length_afterFirstLine {cs rest : List Char} (h : afterFirstLine? cs = some rest) :
    rest.length < cs.length := by
  have hle := (List.dropWhile_sublist (l := cs) (· != '\n')).length_le
  rw [afterFirstLine?] at h
  cases hd : cs.dropWhile (· != '\n') with
  | nil => simp [hd] at h
  | cons c ds =>
      rw [hd] at h hle
      simp only [List.tail?_cons, Option.some.injEq] at h
      subst h
      simp only [List.length_cons] at hle
      omega

/-- The lines of a text whose first character stands at the offset `start`. -/
def linesFrom (start : Nat) (cs : List Char) : List Line :=
  match cs with
  | [] => []
  | c :: rest =>
      let line := firstLine (c :: rest)
      match h : afterFirstLine? (c :: rest) with
      | none => [⟨line, start⟩]
      | some next => ⟨line, start⟩ :: linesFrom (start + byteLength line + 1) next
  termination_by cs.length
  decreasing_by exact length_afterFirstLine h

/-- The lines of a text. -/
def lines (cs : List Char) : List Line := linesFrom 0 cs

end ParenGap.Text
