import Mathlib.Data.List.DropRight
import Mathlib.Tactic
import ParenGap.Proofs.Position
import ParenGap.Proofs.Text.Slice
import ParenGap.Text

/-!
# Rows and lines

The rows of a text tell where each of its bytes stands. Its lines are these rows, taken off the text
one after the other.
-/

set_option autoImplicit false

namespace ParenGap.Text

/-! ## Rows of a text

A text without a newline is one row; every other text is a row, a newline and the rows of the rest,
and most of what is said of rows is proved along these two cases (`rows_induction`). The end of a
text stands in the row after its last newline, behind the characters of that row (`lastRow`). So row
and column of an offset are the newlines before it and the characters since the last one. They grow
with the offset (`coordinates_lt`), and the offset is found again by counting (`offsetAt?_append`).

The lines of a text are its rows, but for an empty one at the end: whatever has something before or
after it in its row stands in a line (`exists_linesFrom_append`).
-/

section Rows

variable {cs line row rest before mid after : List Char} {start : Nat}

/-- A text is a row, or a row, a newline and a text. -/
theorem rows_induction {motive : List Char → Prop} (last : ∀ line, '\n' ∉ line → motive line)
    (cons : ∀ line rest, '\n' ∉ line → motive rest → motive (line ++ '\n' :: rest))
    (cs : List Char) : motive cs := by
  induction hn : cs.length using Nat.strong_induction_on generalizing cs with
  | _ n ih =>
      by_cases h : '\n' ∈ cs
      · obtain ⟨line, rest, rfl, hline⟩ := List.eq_append_cons_of_mem h
        apply cons line rest hline
        apply ih rest.length _ rest rfl
        rw [← hn, List.length_append, List.length_cons]
        omega
      · exact last cs h

/-! ### The first row -/

theorem ne_newline_of_not_mem (h : '\n' ∉ line) : ∀ c ∈ line, (c != '\n') = true := by
  intro c hc
  rw [bne_iff_ne]
  rintro rfl
  exact h hc

theorem firstLine_append (h : '\n' ∉ line) (after : List Char) :
    firstLine (line ++ after) = line ++ firstLine after :=
  List.takeWhile_append_of_pos (ne_newline_of_not_mem h)

theorem afterFirstLine?_append (h : '\n' ∉ line) (after : List Char) :
    afterFirstLine? (line ++ after) = afterFirstLine? after := by
  rw [afterFirstLine?, List.dropWhile_append_of_pos (ne_newline_of_not_mem h), afterFirstLine?]

@[simp] theorem firstLine_newline_cons (rest : List Char) : firstLine ('\n' :: rest) = [] := rfl

@[simp] theorem afterFirstLine?_newline_cons (rest : List Char) :
    afterFirstLine? ('\n' :: rest) = some rest := rfl

/-! ### The last row -/

/-- The characters of a text after its last newline. -/
def lastRow (cs : List Char) : List Char := cs.rtakeWhile (· != '\n')

@[simp] theorem lastRow_nil : lastRow [] = [] := rfl

theorem lastRow_of_not_mem (h : '\n' ∉ cs) : lastRow cs = cs :=
  List.rtakeWhile_eq_self_iff.2 (ne_newline_of_not_mem h)

theorem lastRow_append_of_not_mem (before : List Char) (h : '\n' ∉ mid) :
    lastRow (before ++ mid) = lastRow before ++ mid := by
  have hmid : ∀ c ∈ mid.reverse, (c != '\n') = true :=
    fun c hc => ne_newline_of_not_mem h c (List.mem_reverse.1 hc)
  rw [lastRow, List.rtakeWhile, List.reverse_append, List.takeWhile_append_of_pos hmid,
    List.reverse_append, List.reverse_reverse, lastRow, List.rtakeWhile]

theorem lastRow_append_newline (before rest : List Char) :
    lastRow (before ++ '\n' :: rest) = lastRow rest := by
  induction rest using List.reverseRecOn with
  | nil => exact List.rtakeWhile_concat_neg _ _ _ (by decide)
  | append_singleton rest c ih =>
      by_cases hc : c = '\n'
      · subst hc
        rw [← List.cons_append, ← List.append_assoc]
        exact (List.rtakeWhile_concat_neg _ _ _ (by decide)).trans
          (List.rtakeWhile_concat_neg _ _ _ (by decide)).symm
      · have hmem : '\n' ∉ [c] := by simpa using Ne.symm hc
        rw [← List.cons_append, ← List.append_assoc, lastRow_append_of_not_mem _ hmem, ih,
          lastRow_append_of_not_mem _ hmem]

/-- The last row is empty in an empty text, and after a newline at the end. -/
theorem lastRow_eq_nil_iff : lastRow cs = [] ↔ cs = [] ∨ cs.getLast? = some '\n' := by
  cases cs using List.reverseRecOn with
  | nil => simp
  | append_singleton cs c =>
      by_cases hc : c = '\n'
      · subst hc
        simpa using lastRow_append_newline cs []
      · have hmem : '\n' ∉ [c] := by simpa using Ne.symm hc
        simp [lastRow_append_of_not_mem cs hmem, hc]

/-! ### Rows and columns -/

/-- The row in which a text ends, and the number of characters before its end in that row. -/
def coordinates (cs : List Char) : Nat × Nat := (cs.count '\n', (lastRow cs).length)

/-- What follows stands further on in the same row, or in a later one. -/
theorem coordinates_lt (before : List Char) (h : mid ≠ []) :
    toLex (coordinates before) < toLex (coordinates (before ++ mid)) := by
  rw [Prod.Lex.toLex_lt_toLex, coordinates, coordinates, List.count_append]
  by_cases hmem : '\n' ∈ mid
  · exact .inl (Nat.lt_add_of_pos_right (List.count_pos_iff.2 hmem))
  · refine .inr ⟨by rw [List.count_eq_zero_of_not_mem hmem, Nat.add_zero], ?_⟩
    rw [lastRow_append_of_not_mem before hmem, List.length_append]
    exact Nat.lt_add_of_pos_right (List.length_pos_iff.2 h)

/-- A text from the start of one of its rows on. -/
def fromRow? : Nat → List Char → Option (List Char)
  | 0, cs => some cs
  | row + 1, cs => (afterFirstLine? cs).bind (fromRow? row)

/-- The offset reached by counting characters from the start of a row. -/
def offsetAt? (code : List Char) (row column : Nat) : Option Nat :=
  (fromRow? row code).bind fun rest =>
    if column ≤ rest.length then
      some (byteLength code - byteLength rest + byteLength (rest.take column))
    else none

theorem fromRow?_append (before after : List Char) :
    fromRow? (before.count '\n') (before ++ after) = some (lastRow before ++ after) := by
  induction before using rows_induction with
  | last line h => rw [List.count_eq_zero_of_not_mem h, fromRow?, lastRow_of_not_mem h]
  | cons line rest h ih =>
      rw [List.count_append, List.count_eq_zero_of_not_mem h, List.count_cons_self, Nat.zero_add,
        fromRow?, List.append_assoc, List.cons_append, afterFirstLine?_append h,
        afterFirstLine?_newline_cons, Option.bind_some, ih, lastRow_append_newline]

/-- Counting leads back to the offset that rows and columns are taken from. -/
theorem offsetAt?_append (before after : List Char) :
    offsetAt? (before ++ after) (coordinates before).1 (coordinates before).2 =
      some (byteLength before) := by
  obtain ⟨rows, hrows⟩ : lastRow before <:+ before := List.rtakeWhile_suffix _ before
  have hlength := congrArg byteLength hrows
  rw [byteLength_append] at hlength
  rw [offsetAt?, coordinates, fromRow?_append, Option.bind_some, List.take_left, if_pos (by simp)]
  simp only [byteLength_append]
  congr 1
  omega

/-! ### Rows and lines -/

/-- A text that is not empty has a first line and the lines of what follows its first newline. -/
theorem linesFrom_eq_cons (start : Nat) (h : cs ≠ []) :
    linesFrom start cs = ⟨firstLine cs, start⟩ ::
      (afterFirstLine? cs).elim [] (linesFrom (start + byteLength (firstLine cs) + 1)) := by
  cases cs with
  | nil => exact absurd rfl h
  | cons c cs =>
      rw [linesFrom]
      split
      · rename_i hnone
        rw [hnone, Option.elim_none]
      · rename_i next hnext
        rw [hnext, Option.elim_some]

theorem linesFrom_of_row (start : Nat) (hrow : '\n' ∉ row) (hne : row ≠ []) :
    linesFrom start row = [⟨row, start⟩] := by
  have hfirst := firstLine_append hrow []
  have hafter := afterFirstLine?_append hrow []
  rw [List.append_nil] at hfirst hafter
  rw [linesFrom_eq_cons start hne, hfirst, hafter]
  simp [firstLine, afterFirstLine?]

theorem linesFrom_row_append (start : Nat) (hrow : '\n' ∉ row) (rest : List Char) :
    linesFrom start (row ++ '\n' :: rest) =
      ⟨row, start⟩ :: linesFrom (start + byteLength row + 1) rest := by
  rw [linesFrom_eq_cons start (by simp), firstLine_append hrow, afterFirstLine?_append hrow,
    firstLine_newline_cons, afterFirstLine?_newline_cons, Option.elim_some, List.append_nil]

/-- The end of a first part of a text stands in a line, unless nothing stands before and after it in
its row. As many lines come before this one as there are newlines before it, and they start no
later; the lines after it are those of what follows the next newline. -/
theorem exists_linesFrom_append (start : Nat) (h : lastRow before ++ after ≠ []) :
    ∃ front line back, linesFrom start (before ++ after) = front ++ line :: back ∧
      front.length = before.count '\n' ∧ (∀ l ∈ front, l.start ≤ start + byteLength before) ∧
      line.text = lastRow before ++ firstLine after ∧
      line.start + byteLength (lastRow before) = start + byteLength before ∧
      back = (afterFirstLine? after).elim []
        (linesFrom (start + byteLength before + byteLength (firstLine after) + 1)) := by
  induction before using rows_induction generalizing start with
  | last row hrow =>
      rw [lastRow_of_not_mem hrow] at h ⊢
      refine ⟨[], ⟨row ++ firstLine after, start⟩, _, ?_, ?_, by simp, rfl, rfl, rfl⟩
      · rw [linesFrom_eq_cons start h, firstLine_append hrow, afterFirstLine?_append hrow,
          byteLength_append, ← Nat.add_assoc start, List.nil_append]
      · rw [List.count_eq_zero_of_not_mem hrow, List.length_nil]
  | cons row rest hrow ih =>
      rw [lastRow_append_newline] at h ⊢
      obtain ⟨front, line, back, hlines, hcount, hfront, htext, hstart, hback⟩ :=
        ih (start + byteLength row + 1) h
      have hnewline : ('\n' : Char).utf8Size = 1 := by decide
      have hlength : start + byteLength row + 1 + byteLength rest =
          start + byteLength (row ++ '\n' :: rest) := by
        rw [byteLength_append, byteLength_cons, hnewline]
        omega
      rw [hlength] at hfront hstart hback
      refine ⟨⟨row, start⟩ :: front, line, back, ?_, ?_, ?_, htext, hstart, hback⟩
      · rw [List.append_assoc, List.cons_append, linesFrom_row_append start hrow, hlines,
          List.cons_append]
      · rw [List.length_cons, hcount, List.count_append, List.count_eq_zero_of_not_mem hrow,
          List.count_cons_self, Nat.zero_add]
      · rw [List.forall_mem_cons]
        exact ⟨Nat.le_add_right start _, hfront⟩

end Rows

/-! ## The lines of a text

Lines are taken off a text one after the other, while a count is kept of the bytes that have gone
(`LineCursor`). This ends, and what has been taken by then are the lines of the text
(`yields_lines`). Nothing is lost on the way: the lines start one behind the other, each is what the
text holds at its start, and joined by newlines they are the text again (`Indexes`).

The main statement is `lines_indexes`.
-/

/-! ### Taking lines -/

/-- What is left of a text of which lines have been taken, and the bytes that have gone. -/
structure LineCursor where
  rest : List Char
  index : Nat

/-- Where a text goes on after its first line: behind the newline, or at the end if there is
none. -/
def nextStart (cs : List Char) : Nat :=
  if (afterFirstLine? cs).isSome then byteLength (firstLine cs) + 1 else byteLength (firstLine cs)

/-- Takes a line, if something is left. -/
def LineCursor.next? (cursor : LineCursor) : Option (Line × LineCursor) :=
  if cursor.rest.isEmpty then none
  else
    some (⟨firstLine cursor.rest, cursor.index⟩,
      ⟨(afterFirstLine? cursor.rest).getD [], cursor.index + nextStart cursor.rest⟩)

/-- The lines that are taken until nothing is left. -/
inductive LineCursor.Yields : LineCursor → List Line → Prop
  | done {cursor : LineCursor} (h : cursor.next? = none) : Yields cursor []
  | more {cursor cursor' : LineCursor} {line : Line} {ls : List Line}
      (h : cursor.next? = some (line, cursor')) (hrest : Yields cursor' ls) :
      Yields cursor (line :: ls)

variable {cs row rest code : List Char} {start : Nat} {line : Line} {ls : List Line}

/-- The lines of a text are taken from it in that order, and then nothing is left. -/
theorem yields_linesFrom (start : Nat) (cs : List Char) :
    LineCursor.Yields ⟨cs, start⟩ (linesFrom start cs) := by
  fun_induction linesFrom start cs with
  | case1 start => exact .done rfl
  | case2 start c cs text hnone =>
      have hline : LineCursor.next? ⟨c :: cs, start⟩ =
          some (⟨text, start⟩, ⟨[], start + nextStart (c :: cs)⟩) := by
        rw [LineCursor.next?, hnone]
        rfl
      exact .more hline (.done rfl)
  | case3 start c cs text next hnext ih =>
      have hstart : start + nextStart (c :: cs) = start + byteLength text + 1 := by
        rw [nextStart, hnext, Option.isSome_some, if_pos rfl, Nat.add_assoc]
      refine .more ?_ ih
      rw [LineCursor.next?, ← hstart, hnext]
      rfl

/-! ### The index -/

/-- The texts of lines, with a newline after each; the last one has none if the text is not
closed. -/
def joined (closed : Bool) : List Line → List Char
  | [] => []
  | [l] => if closed then l.text ++ ['\n'] else l.text
  | l :: l' :: ls => l.text ++ '\n' :: joined closed (l' :: ls)

/-- Lines index a text: they tell where each of its parts stands, and lose nothing of it. No line
has a newline in it. The first one starts at the front, and each next one further on, one byte
behind the end of the one before. Each line is what the text holds at its start (`held`), and joined
again the lines are the text, closed if it ends in a newline (`joined_eq`). Only the empty text has
no line. -/
structure Indexes (code : List Char) (ls : List Line) : Prop where
  noNewline : ∀ l ∈ ls, '\n' ∉ l.text
  first : ∀ l ∈ ls.head?, l.start = 0
  increasing : ls.Pairwise fun a b => a.start < b.start
  next : ls.IsChain fun a b => b.start = a.start + byteLength a.text + 1
  held : ∀ l ∈ ls, slice? code l.start (l.start + byteLength l.text) = some l.text
  joined_eq : joined (code.getLast? == some '\n') ls = code
  nil_iff : ls = [] ↔ code = []

theorem linesFrom_eq_nil_iff : linesFrom start cs = [] ↔ cs = [] := by
  constructor
  · intro h
    by_contra hne
    rw [linesFrom_eq_cons start hne] at h
    cases h
  · rintro rfl
    rw [linesFrom]

theorem start_of_mem_head?_linesFrom (h : line ∈ (linesFrom start cs).head?) :
    line.start = start := by
  by_cases hne : cs = []
  · rw [linesFrom_eq_nil_iff.2 hne] at h
    cases h
  · rw [linesFrom_eq_cons start hne] at h
    cases h
    rfl

theorem not_mem_of_mem_linesFrom (h : line ∈ linesFrom start cs) : '\n' ∉ line.text := by
  induction cs using rows_induction generalizing start with
  | last row hrow =>
      by_cases hne : row = []
      · rw [linesFrom_eq_nil_iff.2 hne] at h
        cases h
      · rw [linesFrom_of_row start hrow hne, List.mem_singleton] at h
        rw [h]
        exact hrow
  | cons row rest hrow ih =>
      rw [linesFrom_row_append start hrow rest, List.mem_cons] at h
      rcases h with rfl | h
      · exact hrow
      · exact ih h

theorem isChain_linesFrom (start : Nat) (cs : List Char) :
    (linesFrom start cs).IsChain fun a b => b.start = a.start + byteLength a.text + 1 := by
  induction cs using rows_induction generalizing start with
  | last row hrow =>
      by_cases hne : row = []
      · rw [linesFrom_eq_nil_iff.2 hne]
        exact .nil
      · rw [linesFrom_of_row start hrow hne]
        exact .singleton _
  | cons row rest hrow ih =>
      rw [linesFrom_row_append start hrow rest]
      refine List.isChain_cons.2 ⟨fun l hl => ?_, ih _⟩
      exact start_of_mem_head?_linesFrom hl

theorem pairwise_of_isChain
    (h : ls.IsChain fun a b => b.start = a.start + byteLength a.text + 1) :
    ls.Pairwise fun a b => a.start < b.start := by
  have htrans : Trans (fun a b : Line => a.start < b.start) (fun a b : Line => a.start < b.start)
      (fun a b : Line => a.start < b.start) := ⟨Nat.lt_trans⟩
  refine List.IsChain.pairwise (h.imp fun a b hab => ?_)
  omega

/-- The lines of a text, joined again, are the text. -/
theorem joined_linesFrom (start : Nat) (cs : List Char) :
    joined (cs.getLast? == some '\n') (linesFrom start cs) = cs := by
  induction cs using rows_induction generalizing start with
  | last row hrow =>
      by_cases hne : row = []
      · rw [linesFrom_eq_nil_iff.2 hne, hne]
        rfl
      · -- a row does not end in a newline
        have hopen : (row.getLast? == some '\n') = false := by
          rw [beq_eq_false_iff_ne]
          exact fun hlast => hrow (List.mem_of_getLast? hlast)
        rw [linesFrom_of_row start hrow hne, hopen]
        rfl
  | cons row rest hrow ih =>
      rw [linesFrom_row_append start hrow rest]
      by_cases hne : rest = []
      · rw [hne, List.getLast?_concat, linesFrom_eq_nil_iff.2 rfl]
        simp [joined]
      · -- the text ends as what follows its first newline does
        have hlast : (row ++ '\n' :: rest).getLast? = rest.getLast? := by
          rw [List.getLast?_append_of_ne_nil _ (List.cons_ne_nil _ _),
            List.getLast?_cons_of_ne_nil hne]
        have hrest := ih (start + byteLength row + 1)
        have hlines : linesFrom (start + byteLength row + 1) rest ≠ [] :=
          mt linesFrom_eq_nil_iff.1 hne
        obtain ⟨l, ls, hls⟩ := List.exists_cons_of_ne_nil hlines
        rw [hls] at hrest ⊢
        rw [hlast, joined, hrest]

/-- Taking lines off a text comes to an end, for every text, and the lines that have been taken
index it. -/
theorem lines_indexes (code : List Char) :
    LineCursor.Yields ⟨code, 0⟩ (lines code) ∧ Indexes code (lines code) := by
  refine ⟨yields_linesFrom 0 code, ?_⟩
  have hchain := isChain_linesFrom 0 code
  exact {
    noNewline := fun l hl => not_mem_of_mem_linesFrom hl
    first := fun l hl => start_of_mem_head?_linesFrom hl
    increasing := pairwise_of_isChain hchain
    next := hchain
    held := by
      intro l hl
      obtain ⟨before, after, hcode, hstart⟩ := mem_linesFrom hl
      rw [Nat.zero_add] at hstart
      exact slice?_eq_some_iff.2 ⟨before, after, hcode, hstart.symm, rfl⟩
    joined_eq := joined_linesFrom 0 code
    nil_iff := linesFrom_eq_nil_iff }

end ParenGap.Text
