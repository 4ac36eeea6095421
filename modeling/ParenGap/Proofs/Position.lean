import Mathlib.Tactic
import ParenGap.Position
import ParenGap.Proofs.Text.Slice

/-!
# Positions of places

Every line of a text is a part of it (`mem_linesFrom`), so a place of the text is a place of the
line that it is looked up in, and has a position. A span between two places of a text is a region of
it (`exists_ofSpan?`).
-/

set_option autoImplicit false

namespace ParenGap

namespace Text

variable {cs rest : List Char} {start n : Nat} {line : Line}

theorem eq_firstLine_append (h : afterFirstLine? cs = some rest) :
    cs = firstLine cs ++ '\n' :: rest := by
  rw [afterFirstLine?] at h
  cases hd : cs.dropWhile (· != '\n') with
  | nil => simp [hd] at h
  | cons c ds =>
      have hc : c = '\n' := by
        have hhead :=
          List.head_dropWhile_not (p := fun c : Char => c != '\n') (l := cs) (by simp [hd])
        simpa [hd] using hhead
      rw [hd, List.tail?_cons, Option.some.injEq] at h
      rw [← hc, ← h, ← hd, firstLine, List.takeWhile_append_dropWhile]

/-- Every line is a part of the text, at its start. -/
theorem mem_linesFrom (h : line ∈ linesFrom start cs) :
    ∃ before after, cs = before ++ (line.text ++ after) ∧
      line.start = start + byteLength before := by
  fun_induction linesFrom start cs with
  | case1 start => simp at h
  | case2 start c rest text hnone =>
      obtain rfl := List.mem_singleton.1 h
      refine ⟨[], (c :: rest).dropWhile (· != '\n'), ?_, by simp⟩
      exact (List.takeWhile_append_dropWhile (p := (· != '\n')) (l := c :: rest)).symm
  | case3 start c rest text next hnext ih =>
      have hsplit := eq_firstLine_append hnext
      rcases List.mem_cons.1 h with rfl | h
      · exact ⟨[], '\n' :: next, hsplit, by simp⟩
      · obtain ⟨before, after, hcs, hstart⟩ := ih h
        refine ⟨text ++ '\n' :: before, after, ?_, ?_⟩
        · rw [hsplit, List.append_assoc, List.cons_append, ← hcs]
        · have hnewline : ('\n' : Char).utf8Size = 1 := by decide
          simp only [byteLength_append, byteLength_cons, hnewline]
          omega

/-- Each line has a byte of the text of its own, if only its newline. -/
theorem length_linesFrom_le (start : Nat) (cs : List Char) :
    (linesFrom start cs).length ≤ byteLength cs := by
  fun_induction linesFrom start cs with
  | case1 start => exact le_rfl
  | case2 start c rest text hnone =>
      have hpos := c.utf8Size_pos
      rw [List.length_singleton, byteLength_cons]
      omega
  | case3 start c rest text next hnext ih =>
      have hpos := ('\n').utf8Size_pos
      rw [eq_firstLine_append hnext, List.length_cons, byteLength_append, byteLength_cons]
      omega

theorem length_le_byteLength (cs : List Char) : cs.length ≤ byteLength cs := by
  induction cs with
  | nil => exact le_rfl
  | cons c cs ih =>
      have hpos := c.utf8Size_pos
      rw [List.length_cons, byteLength_cons]
      omega

end Text

section Places

open Text

variable {code : List Char} {n : Nat} {span : Span}

/-- A place of a text is a place of each of its parts that it falls into. -/
theorem Text.IsPlace.of_append {before mid after : List Char}
    (h : IsPlace (before ++ (mid ++ after)) n) (hle : byteLength before ≤ n)
    (hle' : n ≤ byteLength before + byteLength mid) : IsPlace mid (n - byteLength before) := by
  obtain ⟨first, last, heq, rfl⟩ := h
  obtain ⟨part, rfl, hpart⟩ := exists_middle_of_le heq hle
  simp only [byteLength_append] at hle'
  obtain ⟨part', rfl, -⟩ := exists_middle_of_le hpart.symm (by omega)
  exact ⟨part, part', rfl, by simp⟩

/-- A place of a text has a row and characters before it in that row. -/
theorem Position.exists_locate? (h : IsPlace code n) :
    ∃ place, Position.locate? (lines code).toArray n = some place := by
  unfold Position.locate?
  cases hline : (lines code).toArray[Position.row (lines code).toArray n]? with
  | none => exact ⟨_, rfl⟩
  | some line =>
      rw [List.getElem?_toArray] at hline
      obtain ⟨before, after, hcode, hstart⟩ := mem_linesFrom (List.mem_of_getElem? hline)
      rw [Nat.zero_add] at hstart
      have hplace : IsPlace line.text (min (n - line.start) (byteLength line.text)) := by
        rcases Nat.lt_or_ge n line.start with hlt | hle
        · rw [Nat.sub_eq_zero_of_le hlt.le, Nat.zero_min]
          exact .zero line.text
        · rcases Nat.le_total (n - line.start) (byteLength line.text) with hin | hout
          · rw [min_eq_left hin, hstart]
            rw [hcode] at h
            exact h.of_append (by omega) (by omega)
          · rw [min_eq_right hout]
            exact ⟨line.text, [], by simp, rfl⟩
      obtain ⟨parts, hparts⟩ := Option.isSome_iff_exists.1 (isPlace_iff_cut?.1 hplace)
      simp [hparts]

/-- A row, and the characters before a place in its row, are no more than the bytes of the text. -/
theorem Position.locate?_le {place : Nat × List Char}
    (h : Position.locate? (lines code).toArray n = some place) :
    place.1 ≤ byteLength code ∧ place.2.length ≤ byteLength code := by
  unfold Position.locate? at h
  cases hline : (lines code).toArray[Position.row (lines code).toArray n]? with
  | none =>
      rw [hline] at h
      obtain rfl := Option.some.inj h
      exact ⟨Nat.zero_le _, Nat.zero_le _⟩
  | some line =>
      rw [hline] at h
      obtain ⟨parts, hparts, rfl⟩ := Option.map_eq_some_iff.1 h
      rw [List.getElem?_toArray] at hline
      have hrow := (List.getElem?_eq_some_iff.1 hline).1
      obtain ⟨before, after, hcode, -⟩ := mem_linesFrom (List.mem_of_getElem? hline)
      obtain ⟨htext, -⟩ := cut?_eq_some_append hparts
      refine ⟨hrow.le.trans (length_linesFrom_le 0 code), ?_⟩
      have hlength := length_le_byteLength parts.1
      rw [hcode, htext]
      simp only [byteLength_append]
      omega

/-- A span between two places of a text is a region of it. -/
theorem Region.exists_ofSpan? (hstart : IsPlace code span.start) (hstop : IsPlace code span.stop) :
    ∃ region, Region.ofSpan? (lines code).toArray span = some region ∧ region.span = span := by
  obtain ⟨first, hfirst⟩ := Position.exists_locate? hstart
  obtain ⟨last, hlast⟩ := Position.exists_locate? hstop
  exact ⟨⟨span, ⟨first.1, lineWidth first.2⟩, ⟨last.1, lineWidth last.2⟩⟩,
    by simp [Region.ofSpan?, Position.point?, hfirst, hlast], rfl⟩

end Places

end ParenGap
