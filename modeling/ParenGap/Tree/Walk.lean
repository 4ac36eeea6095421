import ParenGap.Tree

/-!
# The walk over a tree

The tokens of a text are collected by a cursor that walks over its tree. From a node that does not
make a single token the cursor goes to the first child; otherwise it goes to the next sibling, and
climbs as long as there is none. The walk is over when there is nowhere to climb to.

At every stop fewer nodes are to come (`rest_next?`), so the walk ends.
-/

set_option autoImplicit false

namespace ParenGap

namespace Node

mutual

/-- The number of nodes in a tree. -/
def count : Node → Nat
  | ⟨_, _, _, _, _, children⟩ => countOf children + 1

/-- The number of nodes in the trees of a list. -/
def countOf : List Node → Nat
  | [] => 0
  | n :: ns => n.count + countOf ns

end

theorem count_pos (n : Node) : 0 < n.count := by
  obtain ⟨kind, span, named, extra, role, children⟩ := n
  exact Nat.succ_pos _

end Node

/-- A place in a tree: a node and, for each of its ancestors with the nearest one first, the
ancestor and those of its children that come later. -/
structure Cursor where
  node : Node
  above : List (Node × List Node)
  deriving Inhabited

namespace Cursor

/-- The cursor at the node that a walk starts from. -/
def ofRoot (root : Node) : Cursor := ⟨root, []⟩

/-- The first child of the node. -/
def firstChild? (c : Cursor) : Option Cursor :=
  match c.node.children with
  | [] => none
  | n :: ns => some ⟨n, (c.node, ns) :: c.above⟩

/-- The next child of the node's parent. -/
def nextSibling? (c : Cursor) : Option Cursor :=
  match c.above with
  | (parent, n :: ns) :: above => some ⟨n, (parent, ns) :: above⟩
  | _ => none

/-- The parent of the node. -/
def parent? (c : Cursor) : Option Cursor :=
  match c.above with
  | [] => none
  | (parent, _) :: above => some ⟨parent, above⟩

theorem length_above_parent? {c d : Cursor} (h : c.parent? = some d) :
    d.above.length < c.above.length := by
  obtain ⟨node, above⟩ := c
  cases above with
  | nil => cases h
  | cons level above =>
      obtain rfl := Option.some.inj h
      exact Nat.lt_succ_self _

/-- The next sibling of the node, or of its nearest ancestor that has one. -/
def leave? (c : Cursor) : Option Cursor :=
  match c.nextSibling? with
  | some d => some d
  | none =>
      match _h : c.parent? with
      | none => none
      | some parent => parent.leave?
  termination_by c.above.length
  decreasing_by exact length_above_parent? _h

/-- The next stop of the walk. -/
def next? (c : Cursor) : Option Cursor :=
  if c.node.isLeaf then c.leave? else c.firstChild?.or c.leave?

/-- The number of nodes that come after the node and its descendants. -/
def ahead (c : Cursor) : Nat := c.above.foldr (fun level n => Node.countOf level.2 + n) 0

/-- The number of nodes that are to come, those at the cursor included. -/
def rest (c : Cursor) : Nat := c.node.count + c.ahead

theorem rest_leave? {c d : Cursor} (h : c.leave? = some d) : d.rest ≤ c.ahead := by
  fun_induction leave? c with
  | case1 c d' hnext =>
      obtain rfl := Option.some.inj h
      obtain ⟨node, above⟩ := c
      match above, hnext with
      | (parent, n :: ns) :: above, hnext =>
          obtain rfl := Option.some.inj hnext
          simp only [rest, ahead, List.foldr_cons, Node.countOf]
          omega
  | case2 c _ _ => cases h
  | case3 c _ parent hparent ih =>
      -- nothing is ahead of the parent that is not ahead of the node
      have hle : parent.ahead ≤ c.ahead := by
        obtain ⟨node, above⟩ := c
        cases above with
        | nil => cases hparent
        | cons level above =>
            obtain rfl := Option.some.inj hparent
            simp only [ahead, List.foldr_cons]
            omega
      exact Nat.le_trans (ih h) hle

theorem rest_firstChild? {c d : Cursor} (h : c.firstChild? = some d) : d.rest < c.rest := by
  obtain ⟨⟨kind, span, named, extra, role, children⟩, above⟩ := c
  cases children with
  | nil => cases h
  | cons n ns =>
      obtain rfl := Option.some.inj h
      simp only [rest, ahead, List.foldr_cons, Node.count, Node.countOf]
      omega

/-- At every stop of the walk there is less to come. -/
theorem rest_next? {c d : Cursor} (h : c.next? = some d) : d.rest < c.rest := by
  have hleave : c.leave? = some d → d.rest < c.rest := by
    intro h
    have hle := rest_leave? h
    have hpos := c.node.count_pos
    simp only [rest] at hle ⊢
    omega
  rw [next?] at h
  split at h
  · exact hleave h
  · rcases Option.or_eq_some_iff.1 h with h | ⟨-, h⟩
    · exact rest_firstChild? h
    · exact hleave h

/-- Adds the token of the node, if it is a visible leaf. -/
def visit? (code : List Char) (c : Cursor) (tokens : Array Token) : Option (Array Token) :=
  if c.node.isLeaf && !c.node.span.isEmpty then (c.node.token? code).map tokens.push
  else some tokens

/-- Adds the tokens from the cursor on to those collected before, if all visible leaves stand in the
text. -/
def collect? (code : List Char) (c : Cursor) (tokens : Array Token) : Option (Array Token) :=
  match c.visit? code tokens with
  | none => none
  | some tokens =>
      match _h : c.next? with
      | none => some tokens
      | some d => d.collect? code tokens
  termination_by c.rest
  decreasing_by exact rest_next? _h

end Cursor

/-- The stream of the tokens of a text, collected from its tree. -/
def TokenStream.ofTree? (tree : Tree) (code : List Char) : Option TokenStream :=
  ((Cursor.ofRoot tree.root).collect? code #[]).map fun tokens => ofList tokens.toList

end ParenGap
