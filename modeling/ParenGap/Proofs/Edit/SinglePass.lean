import Mathlib.Tactic
import ParenGap.Proofs.Edit.Patch

/-!
# A single pass and one edit at a time

A patch is applied in a single pass over the text. The same text comes out if its edits are made one
at a time, each in the text that the one before has left, as long as the last edit of the text is
made first: an edit does not move what stands before it, so that the spans of the edits still to be
made stay where they are (`foldrM_replacedIn?`).

What lies between the edits, before the first and after the last one, is a row of stretches, one
more than there are edits (`stretches`). The text is the stretches with the replaced texts between
them, and the new text the same stretches with the replacements between them
(`exists_alternate`).

The main statement is `ofList_oneByOne`.
-/

set_option autoImplicit false

namespace ParenGap

open Text

/-- The text with the span of an edit replaced, if its ends are places of the text and in order. -/
def Edit.replacedIn? (e : Edit) (code : List Char) : Option (List Char) :=
  if e.span.start ≤ e.span.stop then
    (cut? code e.span.start).bind fun left =>
      (cut? code e.span.stop).map fun right => left.1 ++ (e.replacement ++ right.2)
  else none

/-- The text that stands in a span. -/
def Text.ReadsAt (code : List Char) (span : Span) (text : List Char) : Prop :=
  slice? code span.start span.stop = some text

/-- The texts of two lists in turn; what is left of the longer list comes at the end. -/
def Text.alternate : List (List Char) → List (List Char) → List Char
  | [], us => us.flatten
  | ts, [] => ts.flatten
  | t :: ts, u :: us => t ++ (u ++ alternate ts us)

namespace Patch

/-- The stretches of a text between two offsets that lie outside of the spans of edits. -/
def stretches (start stop : Nat) : List Edit → List Span
  | [] => [⟨start, stop⟩]
  | e :: es => ⟨start, e.span.start⟩ :: stretches e.span.stop stop es

variable {code out t before replaced after : List Char} {m n : Nat} {e : Edit} {es : List Edit}

/-- What stands before the span and after it stays as it is. -/
theorem replacedIn?_append (hstart : byteLength before = e.span.start)
    (hstop : byteLength (before ++ replaced) = e.span.stop) :
    e.replacedIn? (before ++ (replaced ++ after)) = some (before ++ (e.replacement ++ after)) := by
  have hcut : cut? (before ++ (replaced ++ after)) e.span.stop =
      some (before ++ replaced, after) := by
    rw [← List.append_assoc, ← hstop, cut?_byteLength]
  have hle : e.span.start ≤ e.span.stop := by
    rw [byteLength_append] at hstop
    omega
  rw [Edit.replacedIn?, if_pos hle, hcut, ← hstart, cut?_byteLength]
  rfl

/-- Making edits one at a time, the last one of the text first, leaves what stands before all of
them as it is and splices the rest. -/
theorem foldrM_replacedIn? (h : InOrder code es) (hcode : code = before ++ after)
    (hout : splice? code (byteLength before) (byteLength code) es = some out) :
    es.foldrM Edit.replacedIn? code = some (before ++ out) := by
  have hafter : slice? code (byteLength before) (byteLength code) = some after := by
    rw [hcode, slice?_byteLength_append]
  -- the induction follows the pass, so that the part of the text before the edits grows
  induction es generalizing before after out with
  | nil =>
      rw [splice?, hafter, Option.some.injEq] at hout
      rw [← hout, ← hcode]
      rfl
  | cons e es ih =>
      have hle := h.start_le_stop e List.mem_cons_self
      have htail := h.sublist (List.sublist_cons_self e es)
      obtain ⟨hplace, hplace'⟩ := h.places e List.mem_cons_self
      obtain ⟨replaced, hreplaced⟩ := hplace.exists_slice? hplace' hle
      obtain ⟨kept, tail, rest, hkept, hrest', hrest, rfl, rfl⟩ :=
        exists_parts_of_splice?_cons hout hafter hreplaced htail.start_le_stop
      have hstart : byteLength (before ++ kept) = e.span.start := by
        rw [byteLength_append]
        exact add_byteLength_of_slice? hkept
      have hstop : byteLength (before ++ kept ++ replaced) = e.span.stop := by
        rw [byteLength_append, hstart]
        exact add_byteLength_of_slice? hreplaced
      rw [← hstop] at hrest hrest'
      have hlater : es.foldrM Edit.replacedIn? code = some (before ++ kept ++ replaced ++ rest) :=
        ih htail (by simpa using hcode) hrest hrest'
      rw [List.foldrM_cons, hlater, List.append_assoc]
      calc e.replacedIn? (before ++ kept ++ (replaced ++ rest))
          = some (before ++ kept ++ (e.replacement ++ rest)) := replacedIn?_append hstart hstop
        _ = some (before ++ (kept ++ (e.replacement ++ rest))) := by rw [List.append_assoc]

/-- A text and its splice have the same stretches, with the replaced texts between them and with the
replacements. -/
theorem exists_alternate (h : InOrder code es) (hout : splice? code m n es = some out)
    (ht : slice? code m n = some t) :
    ∃ kept replaced,
      List.Forall₂ (ReadsAt code) (stretches m n es) kept ∧
      List.Forall₂ (ReadsAt code) (es.map Edit.span) replaced ∧
      t = alternate kept replaced ∧ out = alternate kept (es.map Edit.replacement) := by
  induction es generalizing m out t with
  | nil =>
      rw [splice?, ht, Option.some.injEq] at hout
      subst hout
      exact ⟨[t], [], .cons ht .nil, .nil, by simp [alternate], by simp [alternate]⟩
  | cons e es ih =>
      have htail := h.sublist (List.sublist_cons_self e es)
      obtain ⟨hplace, hplace'⟩ := h.places e List.mem_cons_self
      obtain ⟨text, htext⟩ :=
        hplace.exists_slice? hplace' (h.start_le_stop e List.mem_cons_self)
      obtain ⟨first, tail, rest, hfirst, htail', hrest, rfl, rfl⟩ :=
        exists_parts_of_splice?_cons hout ht htext htail.start_le_stop
      obtain ⟨kept, replaced, hkept, hreplaced, rfl, rfl⟩ := ih htail hrest htail'
      exact ⟨first :: kept, text :: replaced, .cons hfirst hkept, .cons htext hreplaced, rfl, rfl⟩

/-- If the edits that a patch keeps lie in a text, it can be applied. The result is what comes out
of making the edits one at a time, from the last to the first. It is longer than the text by what
the edits add, and all stretches of the text that lie outside of the edits stand in it in their
order, with the replacements between them. -/
theorem ofList_oneByOne (h : ∀ e ∈ (ofList es).edits, e.span.start ≤ e.span.stop ∧
      IsPlace code e.span.start ∧ IsPlace code e.span.stop) :
    ∃ out kept replaced, (ofList es).applied? code = some out ∧
      (ofList es).edits.foldrM Edit.replacedIn? code = some out ∧
      (byteLength out : Int) = byteLength code + Edit.totalGrowth (ofList es).edits ∧
      List.Forall₂ (ReadsAt code) (stretches 0 (byteLength code) (ofList es).edits) kept ∧
      List.Forall₂ (ReadsAt code) ((ofList es).edits.map Edit.span) replaced ∧
      code = alternate kept replaced ∧
      out = alternate kept ((ofList es).edits.map Edit.replacement) := by
  have horder : InOrder code (ofList es).edits := by
    refine ⟨fun e he => (h e he).1, fun e he => (h e he).2, ?_⟩
    exact (ofList_pairwise es).imp And.right
  obtain ⟨out, hout⟩ := exists_applied? horder
  have hsplice := hout
  rw [applied?_eq_splice?] at hsplice
  obtain ⟨kept, replaced, hkept, hreplaced, hcode, hout'⟩ :=
    exists_alternate horder hsplice (slice?_zero_byteLength code)
  refine ⟨out, kept, replaced, hout, ?_, byteLength_applied? horder hout, hkept, hreplaced, hcode,
    hout'⟩
  exact foldrM_replacedIn? horder (List.nil_append code).symm hsplice

/-- Four bytes and a letter of two bytes among them. -/
def accentedCode : List Char := ['a', 'é', ' ', 'b']

/-- An insertion at the stop of a deletion, which follows a replaced letter, and an insertion at the
end of the text; the edit that starts inside of the letter is dropped. -/
def touchingEdits : List Edit :=
  [⟨⟨4, 4⟩, ['(']⟩, ⟨⟨1, 3⟩, ['x']⟩, ⟨⟨2, 4⟩, []⟩, ⟨⟨3, 4⟩, []⟩, ⟨⟨5, 5⟩, [')']⟩]

theorem ofList_touchingEdits : (ofList touchingEdits).edits =
    [⟨⟨1, 3⟩, ['x']⟩, ⟨⟨3, 4⟩, []⟩, ⟨⟨4, 4⟩, ['(']⟩, ⟨⟨5, 5⟩, [')']⟩] := by cbv

/-- Edits that touch each other and the end of the text turn `aé b` into `ax(b)`, in a single pass
and one at a time. -/
theorem ofList_oneByOne_touchingEdits :
    (∀ e ∈ (ofList touchingEdits).edits, e.span.start ≤ e.span.stop ∧
      IsPlace accentedCode e.span.start ∧ IsPlace accentedCode e.span.stop) ∧
    (ofList touchingEdits).applied? accentedCode = some ['a', 'x', '(', 'b', ')'] ∧
    (ofList touchingEdits).edits.foldrM Edit.replacedIn? accentedCode =
      some ['a', 'x', '(', 'b', ')'] ∧
    ∃ kept, List.Forall₂ (ReadsAt accentedCode)
        [⟨0, 1⟩, ⟨3, 3⟩, ⟨4, 4⟩, ⟨4, 5⟩, ⟨5, 5⟩] kept ∧
      ['a', 'x', '(', 'b', ')'] = alternate kept [['x'], [], ['('], [')']] := by
  have hplaces : ∀ e ∈ (ofList touchingEdits).edits, e.span.start ≤ e.span.stop ∧
      IsPlace accentedCode e.span.start ∧ IsPlace accentedCode e.span.stop := by
    simp only [ofList_touchingEdits, isPlace_iff_cut?]
    decide
  obtain ⟨out, kept, replaced, hout, hone, -, hkept, -, -, halternate⟩ := ofList_oneByOne hplaces
  have hout' : (ofList touchingEdits).applied? accentedCode = some ['a', 'x', '(', 'b', ')'] := by
    rw [applied?, ofList_touchingEdits]
    decide
  obtain rfl : out = ['a', 'x', '(', 'b', ')'] := Option.some.inj (hout.symm.trans hout')
  rw [ofList_touchingEdits] at halternate hkept
  exact ⟨hplaces, hout, hone, kept, hkept, halternate⟩

end Patch

end ParenGap
