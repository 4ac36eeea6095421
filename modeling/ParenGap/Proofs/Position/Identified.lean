import Mathlib.Tactic
import ParenGap.Proofs.Position
import ParenGap.Proofs.Text.Lines
import ParenGap.Proofs.Token.Lookup

/-!
# Reported positions identify the byte

The row that is found by halving in the lines of a text is the number of newlines before the offset,
and what stands before it in that row are the characters since the last newline
(`Position.locate?_append`). This is so at every place of the text but for the one behind a newline
at its end: there is no line there, and the place is taken for the end of the last line, as is
everything behind the text (`Position.locate?_of_body_le`).

The main statement is `Position.identifies`.
-/

set_option autoImplicit false

namespace ParenGap

open Text

namespace Text

variable {code before after : List Char} {n : Nat}

/-- A text without the newline at its end. -/
def body (code : List Char) : List Char :=
  if code.getLast? = some '\n' then code.dropLast else code

/-- A place of a text that is not empty, other than the one behind a newline at its end. -/
def Addressable (code : List Char) (n : Nat) : Prop :=
  code ≠ [] ∧ IsPlace code n ∧ ¬ (n = byteLength code ∧ code.getLast? = some '\n')

/-- At such a place there is something before it or after it in its row. -/
theorem Addressable.lastRow_append_ne_nil (h : Addressable (before ++ after) (byteLength before)) :
    lastRow before ++ after ≠ [] := by
  obtain ⟨hne, -, hlast⟩ := h
  intro hnil
  obtain ⟨hrow, rfl⟩ := List.append_eq_nil_iff.1 hnil
  rw [List.append_nil] at hne hlast
  rcases lastRow_eq_nil_iff.1 hrow with rfl | hnewline
  · exact hne rfl
  · exact hlast ⟨rfl, hnewline⟩

/-- The body of a text is the whole text, or all but a newline; it ends in a row that has something
in it or a newline after it. -/
theorem exists_body_append (h : code ≠ []) :
    ∃ after, code = body code ++ after ∧ (after = [] ∨ after = ['\n']) ∧
      lastRow (body code) ++ after ≠ [] := by
  by_cases hlast : code.getLast? = some '\n'
  · refine ⟨['\n'], ?_, .inr rfl, by simp⟩
    rw [body, if_pos hlast]
    exact (List.dropLast_append_getLast? '\n' hlast).symm
  · refine ⟨[], ?_, .inl rfl, ?_⟩
    · rw [body, if_neg hlast, List.append_nil]
    · rw [body, if_neg hlast, List.append_nil, Ne, lastRow_eq_nil_iff]
      rintro (hnil | hnewline)
      · exact h hnil
      · exact hlast hnewline

end Text

namespace Position

variable {code before after text text' : List Char} {m n row row' : Nat} {front back : List Line}
  {line : Line}

/-! ## The line that is found -/

/-- The row of an offset is that of the last line that starts no later. -/
theorem row_append (hfront : ∀ l ∈ front, l.start ≤ n) (hline : line.start ≤ n)
    (hback : ∀ l ∈ back, n < l.start) :
    Position.row (front ++ line :: back).toArray n = front.length := by
  have hpoint : Search.partitionPoint (front ++ line :: back).toArray
      (fun l => decide (l.start ≤ n)) = front.length + 1 := by
    apply Search.partitionPoint_eq (by simp)
    intro i l hl
    rw [List.getElem?_toArray] at hl
    rw [decide_eq_true_eq]
    rcases Nat.lt_trichotomy i front.length with hi | rfl | hi
    · rw [List.getElem?_append_left hi] at hl
      exact iff_of_true (hfront l (List.mem_of_getElem? hl)) (by omega)
    · rw [List.getElem?_append_right le_rfl, Nat.sub_self, List.getElem?_cons_zero,
        Option.some.injEq] at hl
      exact iff_of_true (hl ▸ hline) (Nat.lt_succ_self _)
    · obtain ⟨j, rfl⟩ := Nat.exists_eq_add_of_lt hi
      have hj : front.length + j + 1 - front.length = j + 1 := by omega
      rw [List.getElem?_append_right hi.le, hj, List.getElem?_cons_succ] at hl
      exact iff_of_false (hback l (List.mem_of_getElem? hl)).not_ge (by omega)
  rw [Position.row, hpoint, Nat.add_sub_cancel]

/-- What is located is the row of that line and the part of it before the offset. -/
theorem locate?_of_lines (hlines : lines code = front ++ line :: back)
    (hfront : ∀ l ∈ front, l.start ≤ n) (hline : line.start ≤ n) (hback : ∀ l ∈ back, n < l.start)
    {rest : List Char} (htext : line.text = text ++ rest)
    (hn : min (n - line.start) (byteLength line.text) = byteLength text) :
    locate? (lines code).toArray n = some (front.length, text) := by
  have hget : (front ++ line :: back).toArray[front.length]? = some line := by
    rw [List.getElem?_toArray, List.getElem?_append_right le_rfl, Nat.sub_self,
      List.getElem?_cons_zero]
  rw [hlines, locate?, row_append hfront hline hback, hget]
  simp only [hn]
  rw [htext, cut?_byteLength, Option.map_some]

/-- Newlines before an offset and characters since the last one are what is located, if the offset
has something before or after it in its row. -/
theorem locate?_append (h : lastRow before ++ after ≠ []) :
    locate? (lines (before ++ after)).toArray (byteLength before) =
      some (before.count '\n', lastRow before) := by
  obtain ⟨front, line, back, hlines, hcount, hfront, htext, hstart, hback⟩ :=
    exists_linesFrom_append 0 h
  rw [Nat.zero_add] at hfront hstart hback
  rw [← hcount]
  refine locate?_of_lines hlines hfront (by omega) ?_ htext ?_
  · -- the lines that come after start behind the next newline
    intro l hl
    rw [hback] at hl
    cases hafter : afterFirstLine? after with
    | none => simp [hafter] at hl
    | some rest =>
        rw [hafter, Option.elim_some] at hl
        obtain ⟨first, last, -, hl⟩ := mem_linesFrom hl
        omega
  · rw [htext, byteLength_append]
    omega

/-- An offset from the end of the last line on is located at that end. -/
theorem locate?_of_body_le (h : code ≠ []) (hn : byteLength (body code) ≤ n) :
    locate? (lines code).toArray n = some ((body code).count '\n', lastRow (body code)) := by
  obtain ⟨after, hcode, hafter, hne⟩ := exists_body_append h
  obtain ⟨front, line, back, hlines, hcount, hfront, htext, hstart, hback⟩ :=
    exists_linesFrom_append 0 hne
  rw [← hcode, Nat.zero_add] at *
  have hempty : firstLine after = [] ∧ back = [] := by
    rcases hafter with rfl | rfl
    · exact ⟨rfl, hback⟩
    · exact ⟨rfl, by rw [hback, afterFirstLine?_newline_cons, Option.elim_some, linesFrom]⟩
  obtain ⟨hfirst, rfl⟩ := hempty
  rw [← hcount]
  refine locate?_of_lines hlines (fun l hl => (hfront l hl).trans hn) (by omega) (by simp) htext ?_
  rw [htext, hfirst, List.append_nil]
  omega

/-! ## Reported positions -/

/-- An offset is reported in a row, behind the characters `text` of that row: `point` counts their
terminal columns, and `column` the characters. -/
structure ReportedAt (code : List Char) (n row : Nat) (text : List Char) : Prop where
  point : point? (lines code).toArray n = some ⟨row, lineWidth text⟩
  column : charColumn? (lines code).toArray n = some text.length

theorem reportedAt_of_locate? (h : locate? (lines code).toArray n = some (row, text)) :
    ReportedAt code n row text where
  point := by rw [point?, h, Option.map_some]
  column := by rw [charColumn?, h, Option.map_some]

/-- An offset has one row and one column. -/
theorem ReportedAt.unique (h : ReportedAt code n row text) (h' : ReportedAt code n row' text') :
    (row, text.length) = (row', text'.length) := by
  have hpoint := h.point.symm.trans h'.point
  have hcolumn := h.column.symm.trans h'.column
  simp only [Option.some.injEq, Point.mk.injEq] at hpoint hcolumn
  rw [hpoint.1, hcolumn]

theorem ReportedAt.ofSpan? {span : Span} (h : ReportedAt code span.start row text)
    (h' : ReportedAt code span.stop row' text') :
    Region.ofSpan? (lines code).toArray span =
      some ⟨span, ⟨row, lineWidth text⟩, ⟨row', lineWidth text'⟩⟩ := by
  rw [Region.ofSpan?, h.point, Option.bind_some, h'.point, Option.map_some]

theorem reportedAt_append (h : Addressable (before ++ after) (byteLength before)) :
    ReportedAt (before ++ after) (byteLength before) (before.count '\n') (lastRow before) :=
  reportedAt_of_locate? (locate?_append h.lastRow_append_ne_nil)

/-- What is reported of a place are the row and the column at which the text before it ends. -/
theorem ReportedAt.eq_coordinates (h : ReportedAt (before ++ after) (byteLength before) row text)
    (haddr : Addressable (before ++ after) (byteLength before)) :
    (row, text.length) = coordinates before :=
  h.unique (reportedAt_append haddr)

/-- The positions of a text identify its bytes. The row of a place is the number of newlines before
it, and its column that of the characters since the last one (`place`), so that of two places the
later one has the later row, or the same row and the later column (`increasing`), and counting the
characters from the start of the row leads back to the place (`counted`). Behind a newline at the
end, and behind the text, the end of the last line is reported (`past`), and in the empty text its
origin. A span whose ends are reported has a region with these ends. -/
structure Identifies (code : List Char) : Prop where
  place : ∀ before after, code = before ++ after → Addressable code (byteLength before) →
    ReportedAt code (byteLength before) (before.count '\n') (lastRow before)
  increasing : ∀ m n row text row' text', Addressable code m → Addressable code n → m < n →
    ReportedAt code m row text → ReportedAt code n row' text' →
      toLex (row, text.length) < toLex (row', text'.length)
  counted : ∀ n row text, Addressable code n → ReportedAt code n row text →
    offsetAt? code row text.length = some n
  past : code ≠ [] → ∀ n, (n = byteLength code ∧ code.getLast? = some '\n') ∨ byteLength code < n →
    ReportedAt code n ((body code).count '\n') (lastRow (body code))
  empty : code = [] → ∀ n, ReportedAt code n 0 []
  region : ∀ span row text row' text', ReportedAt code span.start row text →
    ReportedAt code span.stop row' text' → Region.ofSpan? (lines code).toArray span =
      some ⟨span, ⟨row, lineWidth text⟩, ⟨row', lineWidth text'⟩⟩

/-- Rows and columns in characters identify the bytes of every text. -/
theorem identifies (code : List Char) : Identifies code where
  place := by
    rintro before after rfl h
    exact reportedAt_append h
  increasing := by
    intro m n row text row' text' hm hn hlt h h'
    obtain ⟨before, after, rfl, rfl⟩ := hm.2.1
    obtain ⟨before', after', heq, rfl⟩ := hn.2.1
    -- the text before the later place goes on from the text before the earlier one
    obtain ⟨mid, rfl, rfl⟩ := exists_middle_of_le heq hlt.le
    have hmid : mid ≠ [] := by
      rintro rfl
      simp at hlt
    rw [← List.append_assoc] at hn h'
    rw [h.eq_coordinates hm, h'.eq_coordinates hn]
    exact coordinates_lt before hmid
  counted := by
    intro n row text hn h
    obtain ⟨before, after, rfl, rfl⟩ := hn.2.1
    have hoffset := offsetAt?_append before after
    rw [← h.eq_coordinates hn] at hoffset
    exact hoffset
  past := by
    intro hne n hn
    apply reportedAt_of_locate?
    apply locate?_of_body_le hne
    obtain ⟨after, hcode, -, -⟩ := exists_body_append hne
    have hlength := congrArg byteLength hcode
    rw [byteLength_append] at hlength
    omega
  empty := by
    rintro rfl n
    apply reportedAt_of_locate?
    rw [lines, linesFrom]
    rfl
  region span row text row' text' h h' := h.ofSpan? h'

/-- Two rows, the second one with a letter of two bytes, and a newline at the end. -/
def twoRows : List Char := ['a', '\n', 'é', 'b', '\n']

/-- The `b` stands in the second row behind the letter; the place after the last newline, and all
offsets from there on, are the end of the second row. -/
theorem identifies_twoRows :
    Addressable twoRows 2 ∧ Addressable twoRows 4 ∧ ReportedAt twoRows 2 1 [] ∧
      ReportedAt twoRows 4 1 ['é'] ∧ toLex (1, 0) < toLex (1, 1) ∧
      offsetAt? twoRows 1 1 = some 4 ∧ ReportedAt twoRows 6 1 ['é', 'b'] ∧
      Region.ofSpan? (lines twoRows).toArray ⟨2, 9⟩ =
        some ⟨⟨2, 9⟩, ⟨1, 0⟩, ⟨1, lineWidth ['é', 'b']⟩⟩ := by
  have hfirst : Addressable twoRows 2 :=
    ⟨by decide, ⟨['a', '\n'], ['é', 'b', '\n'], rfl, rfl⟩, by decide⟩
  have hsecond : Addressable twoRows 4 :=
    ⟨by decide, ⟨['a', '\n', 'é'], ['b', '\n'], rfl, rfl⟩, by decide⟩
  have h := identifies twoRows
  have hrow := h.place ['a', '\n'] ['é', 'b', '\n'] rfl hfirst
  have hletter := h.place ['a', '\n', 'é'] ['b', '\n'] rfl hsecond
  have hlast := h.past (by decide) 6 (.inl ⟨rfl, rfl⟩)
  have hpast := h.past (by decide) 9 (.inr (by decide))
  exact ⟨hfirst, hsecond, hrow, hletter, h.increasing 2 4 _ _ _ _ hfirst hsecond (by decide) hrow
    hletter, h.counted 4 _ _ hsecond hletter, hlast, h.region ⟨2, 9⟩ _ _ _ _ hrow hpast⟩

end Position

end ParenGap
