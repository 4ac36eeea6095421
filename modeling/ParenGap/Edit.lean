import ParenGap.Text

/-!
# Edits and patches

Edits that do not collide make a patch, which is applied in a single pass over the text.
-/

set_option autoImplicit false

namespace ParenGap

/-! ## Edits

An edit replaces the bytes of a span. An empty span makes it an insertion, and an empty replacement
a deletion.
-/

/-- A replacement of the bytes of a span. -/
structure Edit where
  span : Span
  replacement : List Char
  deriving DecidableEq, Repr, Inhabited

/-- Whether an edit collides with one that starts no later: it starts before the other one stops, or
where it starts. -/
def Edit.collides (earlier later : Edit) : Bool :=
  decide (later.span.start < earlier.span.stop) || later.span.start == earlier.span.start

theorem Edit.collides_iff {earlier later : Edit} : earlier.collides later = true ↔
    later.span.start < earlier.span.stop ∨ later.span.start = earlier.span.start := by
  rw [collides, Bool.or_eq_true, decide_eq_true_eq, beq_iff_eq]

/-! ## Patches

A patch is a list of edits in the order of their starts, of which no two collide. It is made from
edits in any order: they are sorted by their starts, and an edit that collides with the last one
kept is dropped. A patch is applied in a single pass over the text.
-/

/-- Edits in the order of their starts that do not collide. -/
structure Patch where
  edits : List Edit
  deriving DecidableEq, Repr, Inhabited

namespace Patch

/-- The edits of a list that do not collide with the last one kept before them, `last` being the
last one kept before the list. -/
def keepFrom (last : Option Edit) : List Edit → List Edit
  | [] => []
  | e :: es =>
      if last.any fun kept => kept.collides e then keepFrom last es
      else e :: keepFrom (some e) es

/-- Whether an edit starts no later than another one. -/
def startsBefore (a b : Edit) : Bool := decide (a.span.start ≤ b.span.start)

/-- The patch made of edits in any order; of edits that collide the earlier one is kept. -/
def ofList (edits : List Edit) : Patch := ⟨keepFrom none (edits.mergeSort startsBefore)⟩

/-- Number of edits kept. -/
def size (p : Patch) : Nat := p.edits.length

/-- Whether no edit is left. -/
def isEmpty (p : Patch) : Bool := p.edits.isEmpty

/-- Applies the remaining edits to a text of which everything before `cursor` has been written. -/
def appliedFrom? (code : List Char) (cursor : Nat) : List Edit → Option (List Char)
  | [] => (Text.cut? code cursor).map Prod.snd
  | e :: es =>
      (Text.slice? code cursor e.span.start).bind fun kept =>
        (appliedFrom? code e.span.stop es).map fun rest => kept ++ e.replacement ++ rest

/-- The text with all edits applied, if they all lie in the text. -/
def applied? (p : Patch) (code : List Char) : Option (List Char) := appliedFrom? code 0 p.edits

end Patch

end ParenGap
