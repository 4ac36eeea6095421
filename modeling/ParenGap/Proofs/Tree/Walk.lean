import Mathlib.Tactic
import ParenGap.Proofs.Tree.Nesting
import ParenGap.Proofs.Tree.Preorder
import ParenGap.Tree.Walk

/-!
# What the walk collects

A walk stops at every node that no atomic node hides, in preorder, and then it ends. One step lemma
says so for a cursor and the next one (`upcoming_eq_cons`), and by induction on what is to come so
does a whole walk (`exists_walk`). The tokens are collected on the way, so that they are those of
the visible leaves (`TokenStream.ofTree?_eq`).

Of nested nodes these tokens are in order, whatever the nodes' places are. They exist exactly if all
visible leaves start and stop at places of the text (`TokenStream.ofTree?_visible`).
-/

set_option autoImplicit false

namespace ParenGap

namespace Cursor

/-- A whole walk from a cursor on, as the list of its stops. -/
inductive Walk : Cursor → List Cursor → Prop
  | last {c : Cursor} : c.next? = none → Walk c [c]
  | step {c d : Cursor} {stops : List Cursor} :
      c.next? = some d → Walk d stops → Walk c (c :: stops)

/-- The nodes that come after the node and its descendants and that no atomic node hides. -/
def coming (c : Cursor) : List Node :=
  c.above.flatMap fun level => level.2.flatMap fun n => n.shown.map Occurrence.node

/-- The nodes from the cursor on that no atomic node hides. -/
def upcoming (c : Cursor) : List Node := c.node.shown.map Occurrence.node ++ c.coming

variable {c d : Cursor} {code : List Char} {tokens : Array Token}

theorem upcoming_of_nextSibling? (h : c.nextSibling? = some d) : d.upcoming = c.coming := by
  obtain ⟨node, above⟩ := c
  match above, h with
  | (parent, n :: ns) :: above, h =>
      obtain rfl := Option.some.inj h
      simp only [upcoming, coming, List.flatMap_cons, List.append_assoc]

theorem coming_of_parent? (hnext : c.nextSibling? = none) (h : c.parent? = some d) :
    d.coming = c.coming := by
  obtain ⟨node, above⟩ := c
  match above, hnext, h with
  | (parent, []) :: above, _, h =>
      obtain rfl := Option.some.inj h
      rfl

theorem coming_of_parent?_none (h : c.parent? = none) : c.coming = [] := by
  obtain ⟨node, above⟩ := c
  cases above with
  | nil => rfl
  | cons level above => cases h

/-- Climbing goes past nothing that is still to come. -/
theorem coming_eq (c : Cursor) : c.coming = (c.leave?.map upcoming).getD [] := by
  fun_induction leave? c with
  | case1 c d hnext => exact (upcoming_of_nextSibling? hnext).symm
  | case2 c _ hparent => exact coming_of_parent?_none hparent
  | case3 c hnext parent hparent ih => rw [← coming_of_parent? hnext hparent, ih]

/-- A step of the walk goes from a node to the next one. -/
theorem upcoming_eq_cons (c : Cursor) :
    c.upcoming = c.node :: (c.next?.map upcoming).getD [] := by
  rw [next?]
  cases hleaf : c.node.isLeaf with
  | true =>
      rw [upcoming, Node.shown_of_isLeaf hleaf, if_pos rfl, ← coming_eq]
      rfl
  | false =>
      -- a node that is not a leaf has a first child, and the others are next to it
      obtain ⟨⟨kind, span, named, extra, role, children⟩, above⟩ := c
      cases children with
      | nil => cases hleaf
      | cons n ns =>
          rw [upcoming, Node.shown_of_not_isLeaf hleaf, List.map_cons, Node.map_node_branch]
          simp only [firstChild?, upcoming, coming, List.flatMap_cons, List.cons_append,
            List.append_assoc, Bool.false_eq_true, if_false, Option.some_or, Option.map_some,
            Option.getD_some]

/-- Every walk ends, and it stops at all nodes that are to come. -/
theorem exists_walk (c : Cursor) : ∃ stops, c.Walk stops ∧ stops.map node = c.upcoming := by
  -- a stop may be anywhere in the tree, so the induction is on how much is to come
  induction hrest : c.rest using Nat.strong_induction_on generalizing c with
  | h k ih =>
      rw [upcoming_eq_cons]
      cases hnext : c.next? with
      | none => exact ⟨[c], .last hnext, rfl⟩
      | some d =>
          obtain ⟨stops, hwalk, hstops⟩ := ih d.rest (hrest ▸ rest_next? hnext) d rfl
          refine ⟨c :: stops, .step hnext hwalk, ?_⟩
          rw [List.map_cons, hstops, Option.map_some, Option.getD_some]

/-- At a stop the token of a visible leaf is added, and nothing is added at any other node. -/
theorem visit?_eq (code : List Char) (c : Cursor) (tokens : Array Token) :
    c.visit? code tokens =
      (([c.node].filter fun n => decide n.Visible).mapM (Node.token? code)).map
        fun ts => tokens ++ ts.toArray := by
  have hiff : (c.node.isLeaf && !c.node.span.isEmpty) = decide c.node.Visible := by
    rw [Bool.eq_iff_iff, decide_eq_true_iff, Node.visible_iff]
    simp
  rw [visit?, hiff, List.filter_singleton]
  cases decide c.node.Visible with
  | false => simp
  | true =>
      cases htoken : c.node.token? code with
      | none => simp [htoken]
      | some t => simp [htoken]

/-- The stops of a walk add the tokens of the visible nodes among theirs. -/
theorem foldlM_visit?_eq (code : List Char) (stops : List Cursor) (tokens : Array Token) :
    stops.foldlM (fun ts c => c.visit? code ts) tokens =
      (((stops.map node).filter fun n => decide n.Visible).mapM (Node.token? code)).map
        fun ts => tokens ++ ts.toArray := by
  induction stops generalizing tokens with
  | nil => simp
  | cons c stops ih =>
      have hsplit : (c :: stops).map node = [c.node] ++ stops.map node := rfl
      -- both sides read the first node first, and fail there if it has no token
      rw [List.foldlM_cons, visit?_eq, hsplit, List.filter_append, List.mapM_append]
      cases ([c.node].filter fun n => decide n.Visible).mapM (Node.token? code) with
      | none => rfl
      | some ts =>
          simp only [Option.map_some, Option.bind_eq_bind, Option.bind_some, ih]
          cases ((stops.map node).filter fun n => decide n.Visible).mapM (Node.token? code) <;>
            simp

theorem collect?_of_last (h : c.next? = none) :
    c.collect? code tokens = c.visit? code tokens := by
  rw [collect?]
  cases c.visit? code tokens with
  | none => rfl
  | some ts =>
      dsimp only
      split
      · rfl
      · rename_i hnext
        rw [h] at hnext
        cases hnext

theorem collect?_of_next (h : c.next? = some d) :
    c.collect? code tokens = (c.visit? code tokens).bind fun ts => d.collect? code ts := by
  rw [collect?]
  cases c.visit? code tokens with
  | none => rfl
  | some ts =>
      rw [Option.bind_some]
      dsimp only
      split
      · rename_i hnext
        rw [h] at hnext
        cases hnext
      · rename_i hnext
        rw [h] at hnext
        obtain rfl := Option.some.inj hnext
        rfl

/-- The loop visits the stops of the walk one after the other. -/
theorem Walk.collect?_eq {stops : List Cursor} (h : c.Walk stops) (tokens : Array Token) :
    c.collect? code tokens = stops.foldlM (fun ts c => c.visit? code ts) tokens := by
  induction h generalizing tokens with
  | last hnext =>
      rw [collect?_of_last hnext, List.foldlM_cons]
      exact (Option.bind_fun_some _).symm
  | step hnext _ ih =>
      rw [collect?_of_next hnext, List.foldlM_cons]
      exact Option.bind_congr fun ts _ => ih ts

end Cursor

section Tokens

variable {tree : Tree} {code : List Char} {s : TokenStream}

theorem Cursor.upcoming_ofRoot (root : Node) :
    (Cursor.ofRoot root).upcoming = root.shown.map Occurrence.node :=
  List.append_nil _

/-- The walk over a tree collects the tokens of its visible leaves. -/
theorem TokenStream.ofTree?_eq (tree : Tree) (code : List Char) :
    TokenStream.ofTree? tree code = (tree.tokens? code).map TokenStream.ofList := by
  obtain ⟨stops, hwalk, hstops⟩ := (Cursor.ofRoot tree.root).exists_walk
  rw [ofTree?, hwalk.collect?_eq, Cursor.foldlM_visit?_eq, hstops, Cursor.upcoming_ofRoot,
    ← Node.leaves_eq, Tree.tokens?, Option.map_map]
  congr 1
  funext ts
  simp

theorem TokenStream.ofTree?_eq_some_iff :
    TokenStream.ofTree? tree code = some s ↔
      ∃ tokens, tree.tokens? code = some tokens ∧ TokenStream.ofList tokens = s := by
  rw [ofTree?_eq, Option.map_eq_some_iff]

/-- The walk over a tree of nested nodes ends. It stops at every node that no atomic node hides, and
it collects, in preorder and each of them once, the tokens of the visible ones among these, if all
of them stand in the text. So the tokens are not empty and follow each other, and both their starts
and their stops increase. -/
theorem TokenStream.ofTree?_visible (tree : Tree) (code : List Char)
    (hnested : ∀ n, tree.root.Contains n → n.Nested) :
    ∃ exposed visible : List Occurrence,
      tree.root.Lists (fun o => tree.root.Exposes o.path) exposed ∧
      tree.root.Lists (fun o => tree.root.Exposes o.path ∧ o.node.Visible) visible ∧
      (∃ stops, (Cursor.ofRoot tree.root).Walk stops ∧
        stops.map Cursor.node = exposed.map Occurrence.node ∧
        TokenStream.ofTree? tree code =
          (stops.foldlM (fun ts c => Cursor.visit? code c ts) #[]).map fun ts => ofList ts.toList) ∧
      ((∃ s, TokenStream.ofTree? tree code = some s) ↔
        ∀ o ∈ visible, Text.IsPlace code o.node.span.start ∧ Text.IsPlace code o.node.span.stop) ∧
      ∀ s, TokenStream.ofTree? tree code = some s →
        List.Forall₂ (fun o t => t.span = o.node.span ∧
          Text.slice? code o.node.span.start o.node.span.stop = some t.text ∧
          t.kind = o.node.tokenKind t.text) visible s.tokens.toList ∧
        (∀ i t, s.get? i = some t → t.span.start < t.span.stop) ∧
        (∀ i t u, s.get? i = some t → s.get? (i + 1) = some u → t.span.stop ≤ u.span.start) ∧
        s.tokens.toList.Pairwise fun t u =>
          t.span.start < u.span.start ∧ t.span.stop < u.span.stop := by
  have hvisible : tree.root.Lists (fun o => tree.root.Exposes o.path ∧ o.node.Visible)
      (tree.root.shown.filter fun o => decide o.node.Visible) :=
    tree.root.lists_shown.filter fun o => decide_eq_true_iff
  -- the visible leaves are the nodes of the visible occurrences
  have hleaves : tree.root.leaves =
      (tree.root.shown.filter fun o => decide o.node.Visible).map Occurrence.node := by
    rw [Node.leaves_eq, List.filter_map]
    rfl
  refine ⟨_, _, tree.root.lists_shown, hvisible, ?_, ?_, ?_⟩
  · obtain ⟨stops, hwalk, hstops⟩ := (Cursor.ofRoot tree.root).exists_walk
    rw [Cursor.upcoming_ofRoot] at hstops
    refine ⟨stops, hwalk, hstops, ?_⟩
    rw [ofTree?, hwalk.collect?_eq]
  · have hexists : (∃ tokens, tree.tokens? code = some tokens) ↔
        ∀ l ∈ tree.root.leaves, Text.IsPlace code l.span.start ∧ Text.IsPlace code l.span.stop :=
      Tree.exists_tokens?_iff
    rw [hleaves, List.forall_mem_map] at hexists
    rw [← hexists, ofTree?_eq]
    simp
  · intro s hs
    obtain ⟨tokens, htokens, rfl⟩ := ofTree?_eq_some_iff.1 hs
    have horder := Tree.inOrder_of_nested hnested htokens
    have hall := Tree.tokens?_eq_some_iff.1 htokens
    rw [hleaves, List.forall₂_map_left_iff] at hall
    refine ⟨hall.imp fun o t hot => ?_, ?_, ?_, ?_⟩
    · obtain ⟨htext, hspan, hkind⟩ := Node.token?_eq_some_iff.1 hot
      exact ⟨hspan, htext, hkind⟩
    · intro i t ht
      exact horder.nonempty t (mem_of_get? ht)
    · intro i t u ht hu
      exact get?_rel_of_pairwise horder.ordered ht hu (Nat.lt_succ_self i)
    · refine horder.ordered.imp_of_mem fun {t u} ht hu htu => ?_
      have htlt := horder.nonempty t ht
      have hult := horder.nonempty u hu
      omega

end Tokens

/-! ## An unfinished call -/

/-- The tree of `f(/a/`, with the parenthesis that the parser adds and that covers no byte. -/
def unfinishedTree : Tree where
  root := ⟨"program", ⟨0, 5⟩, true, false, none,
    [⟨"expression_statement", ⟨0, 5⟩, true, false, none,
      [⟨"call_expression", ⟨0, 5⟩, true, false, none,
        [⟨"identifier", ⟨0, 1⟩, true, false, some .function, []⟩,
        ⟨"arguments", ⟨1, 5⟩, true, false, some .arguments,
          [.mark "(" 1,
          ⟨"regex", ⟨2, 5⟩, true, false, none,
            [.mark "/" 2, ⟨"regex_pattern", ⟨3, 4⟩, true, false, none, []⟩, .mark "/" 4]⟩,
          ⟨")", ⟨5, 5⟩, false, false, none, []⟩]⟩]⟩]⟩]⟩
  hasError := true

/-- The text `f(/a/`. -/
def unfinishedCode : List Char := ['f', '(', '/', 'a', '/']

/-- The pattern makes one token, and the added parenthesis makes none. -/
def unfinishedStream : TokenStream := TokenStream.ofList
  [⟨.identifier, ⟨0, 1⟩, ['f']⟩, ⟨.punctuator, ⟨1, 2⟩, ['(']⟩, ⟨.literal, ⟨2, 5⟩, ['/', 'a', '/']⟩]

theorem unfinishedTree_wellFormed : unfinishedTree.WellFormed unfinishedCode := by decide

theorem TokenStream.ofTree?_unfinishedTree :
    TokenStream.ofTree? unfinishedTree unfinishedCode = some unfinishedStream := by
  have htokens : unfinishedTree.tokens? unfinishedCode = some unfinishedStream.tokens.toList := by
    decide
  rw [ofTree?_eq, htokens]
  rfl

theorem TokenStream.ofTree?_visible_unfinishedTree :
    (∀ n, unfinishedTree.root.Contains n → n.Nested) ∧
      ∃ visible : List Occurrence,
        unfinishedTree.root.Lists
          (fun o => unfinishedTree.root.Exposes o.path ∧ o.node.Visible) visible ∧
        visible.map (fun o => o.node.span) = [⟨0, 1⟩, ⟨1, 2⟩, ⟨2, 5⟩] := by
  have hnested := unfinishedTree_wellFormed.nested
  obtain ⟨exposed, visible, -, hvisible, -, -, htokens⟩ :=
    ofTree?_visible unfinishedTree unfinishedCode hnested
  have hall := (htokens _ ofTree?_unfinishedTree).1
  refine ⟨hnested, visible, hvisible, ?_⟩
  have hspans : List.Forall₂ (· = ·) (visible.map fun o => o.node.span)
      (unfinishedStream.tokens.toList.map Token.span) :=
    List.forall₂_map_left_iff.2 (List.forall₂_map_right_iff.2 (hall.imp fun _ _ hot => hot.1.symm))
  rw [List.forall₂_eq_eq_eq] at hspans
  exact hspans

end ParenGap
