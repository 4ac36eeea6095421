import Mathlib.Tactic
import ParenGap.Proofs.Tree.Nesting

/-!
# Tight trees

In a tight tree every node starts and stops with a token, and the tokens of a node are a stretch of
those of the tree.
-/

set_option autoImplicit false

namespace ParenGap

/-! ## Nodes of tight trees

In a tight tree the children of a node reach from its start to its stop, so that a shown node starts
where a leaf starts and stops where a leaf stops. A node that is not shown lies inside of a leaf. So
every node below the root starts and stops inside of leaves (`Tight.exists_leaf_start`,
`Tight.exists_leaf_stop`), and every leaf has its token in the stream.
-/

section Leaves

variable {tree : Tree} {code : List Char} {m l : Node} {tokens : List Token}

open Node

/-- A shown node of a tight tree starts where a leaf starts. -/
theorem Tree.Tight.exists_leaf_start_eq (h : tree.Tight) (hm : tree.root.Below m)
    (hshows : tree.root.Shows m) : ∃ l ∈ tree.root.leaves, l.span.start = m.span.start := by
  induction m using induction_on_children with
  | step m ih =>
      cases hleaf : m.isLeaf with
      | true =>
          have hempty : m.span.isEmpty = false := by simpa [Span.isEmpty] using (h m hm).nonempty
          exact ⟨m, mem_leaves_iff.2 ⟨hshows, hleaf, hempty⟩, rfl⟩
      | false =>
          obtain ⟨c, hc⟩ : ∃ c, m.children.head? = some c := by
            cases hcs : m.children with
            | nil => simp [isLeaf, hcs] at hleaf
            | cons c cs => exact ⟨c, rfl⟩
          have hmem : c ∈ m.children := List.mem_of_head? hc
          obtain ⟨l, hl, hstart⟩ := ih c hmem (.of_contains_mem_children hm.contains hmem)
            (hshows.trans (.child hleaf hmem (.refl c)))
          exact ⟨l, hl, hstart.trans ((h m hm).first c hc)⟩

/-- The last of the visible leaves of a tight node stops where the node stops. -/
theorem Node.exists_leaves_eq_concat {n : Node} (h : ∀ m, n.Contains m → m.Tight) :
    ∃ ls l, n.leaves = ls ++ [l] ∧ l.span.stop = n.span.stop := by
  induction n using induction_on_children with
  | step n ih =>
      cases hleaf : n.isLeaf with
      | true =>
          have hempty : n.span.isEmpty = false := by
            simpa [Span.isEmpty] using (h n (.refl n)).nonempty
          refine ⟨[], n, ?_, rfl⟩
          rw [leaves_of_isLeaf hleaf, hempty]
          rfl
      | false =>
          -- the last leaf of the last child is the last leaf
          have hne : n.children ≠ [] := by
            intro hnil
            simp [isLeaf, hnil] at hleaf
          obtain ⟨cs, c, hcs⟩ := (List.eq_nil_or_concat n.children).resolve_left hne
          have hc : c ∈ n.children := by
            rw [hcs, List.concat_eq_append]
            exact List.mem_concat_self
          obtain ⟨ls, l, hls, hstop⟩ := ih c hc fun m hm => h m (.child hc hm)
          refine ⟨cs.flatMap leaves ++ ls, l, ?_, hstop.trans ((h n (.refl n)).last c ?_)⟩
          · rw [leaves_of_not_isLeaf hleaf, hcs, List.concat_eq_append, List.flatMap_append,
              List.flatMap_singleton, hls, List.append_assoc]
          · rw [hcs, List.concat_eq_append, List.getLast?_append]
            rfl

/-- A shown node of a tight tree stops where a leaf stops. -/
theorem Tree.Tight.exists_leaf_stop_eq (h : tree.Tight) (hm : tree.root.Below m)
    (hshows : tree.root.Shows m) : ∃ l ∈ tree.root.leaves, l.span.stop = m.span.stop := by
  obtain ⟨ls, l, hls, hstop⟩ :=
    exists_leaves_eq_concat fun l hl => h l (hm.trans_contains hl)
  have hl : l ∈ m.leaves := by
    rw [hls]
    exact List.mem_concat_self
  obtain ⟨hml, hrest⟩ := mem_leaves_iff.1 hl
  exact ⟨l, mem_leaves_iff.2 ⟨hshows.trans hml, hrest⟩, hstop⟩

/-- A node that is not shown lies inside of a leaf. -/
theorem Tree.Tight.exists_leaf_around (h : tree.Tight)
    (hnested : ∀ n, tree.root.Contains n → n.Nested) (hm : tree.root.Below m)
    (hshows : ¬ tree.root.Shows m) :
    ∃ l ∈ tree.root.leaves, l.span.start ≤ m.span.start ∧ m.span.stop ≤ l.span.stop := by
  rcases hm.contains.shows_or_hidden with hm' | ⟨a, ha, haleaf, ham⟩
  · exact absurd hm' hshows
  · have hin := ham.contains.inside fun l hl => hnested l (ha.contains.trans hl)
    have hlt := (h m hm).nonempty
    have hempty : a.span.isEmpty = false := by
      simp only [Span.isEmpty, decide_eq_false_iff_not]
      omega
    exact ⟨a, mem_leaves_iff.2 ⟨ha, haleaf, hempty⟩, hin⟩

/-- Every node below the root starts inside of a leaf. -/
theorem Tree.Tight.exists_leaf_start (h : tree.Tight)
    (hnested : ∀ n, tree.root.Contains n → n.Nested) (hm : tree.root.Below m) :
    ∃ l ∈ tree.root.leaves, l.span.start ≤ m.span.start ∧ m.span.start < l.span.stop := by
  have hlt := (h m hm).nonempty
  by_cases hshows : tree.root.Shows m
  · obtain ⟨l, hl, hstart⟩ := h.exists_leaf_start_eq hm hshows
    have hempty := (mem_leaves_iff.1 hl).2.2
    simp only [Span.isEmpty, decide_eq_false_iff_not] at hempty
    exact ⟨l, hl, by omega, by omega⟩
  · obtain ⟨l, hl, hstart, hstop⟩ := h.exists_leaf_around hnested hm hshows
    exact ⟨l, hl, hstart, by omega⟩

/-- Every node below the root stops inside of a leaf. -/
theorem Tree.Tight.exists_leaf_stop (h : tree.Tight)
    (hnested : ∀ n, tree.root.Contains n → n.Nested) (hm : tree.root.Below m) :
    ∃ l ∈ tree.root.leaves, l.span.start < m.span.stop ∧ m.span.stop ≤ l.span.stop := by
  have hlt := (h m hm).nonempty
  by_cases hshows : tree.root.Shows m
  · obtain ⟨l, hl, hstop⟩ := h.exists_leaf_stop_eq hm hshows
    have hempty := (mem_leaves_iff.1 hl).2.2
    simp only [Span.isEmpty, decide_eq_false_iff_not] at hempty
    exact ⟨l, hl, by omega, by omega⟩
  · obtain ⟨l, hl, hstart, hstop⟩ := h.exists_leaf_around hnested hm hshows
    exact ⟨l, hl, by omega, hstop⟩

/-- A leaf's token is in the stream. -/
theorem Tree.exists_token_of_mem_leaves (h : tree.tokens? code = some tokens)
    (hl : l ∈ tree.root.leaves) :
    ∃ i t, (TokenStream.ofList tokens).get? i = some t ∧ l.token? code = some t := by
  obtain ⟨i, hi, rfl⟩ := List.getElem_of_mem hl
  have hall := Tree.tokens?_eq_some_iff.1 h
  have hi' : i < tokens.length := by
    rw [← hall.length_eq]
    exact hi
  refine ⟨i, tokens[i], ?_, hall.get hi hi'⟩
  rw [TokenStream.get?, TokenStream.ofList, List.getElem?_toArray, List.getElem?_eq_getElem hi']

theorem Tree.exists_get?_of_mem_leaves (h : tree.tokens? code = some tokens)
    (hl : l ∈ tree.root.leaves) :
    ∃ i t, (TokenStream.ofList tokens).get? i = some t ∧ t.span = l.span := by
  obtain ⟨i, t, ht, hlt⟩ := Tree.exists_token_of_mem_leaves h hl
  exact ⟨i, t, ht, (Node.token?_eq_some_iff.1 hlt).2.1⟩

end Leaves

/-! ## The tokens of a node

The tokens of a node are those of its children, one after the other (`tokens?_of_not_isLeaf`,
`tokensOf?_cons_eq_some_iff`). The tokens of a shown node are a stretch of the tokens of the tree
(`Tree.exists_tokens?_of_shows`), and in a tight tree the last of them stops where the node stops
(`exists_tokens?_eq_concat`).
-/

namespace Node

/-- The tokens of a node of a text, if all its leaves stand in the text. -/
def tokens? (code : List Char) (n : Node) : Option (List Token) := n.leaves.mapM (token? code)

/-- The tokens of the nodes of a list. -/
def tokensOf? (code : List Char) (ns : List Node) : Option (List Token) :=
  (ns.flatMap leaves).mapM (token? code)

variable {code : List Char} {n : Node} {ms ns : List Node} {ts : List Token}

theorem tokens?_of_not_isLeaf (h : n.isLeaf = false) :
    n.tokens? code = tokensOf? code n.children := by
  rw [tokens?, leaves_of_not_isLeaf h, tokensOf?]

/-- A leaf that covers some bytes makes a single token. -/
theorem tokens?_eq_some_iff_of_isLeaf (h : n.isLeaf = true) (hne : n.span.start < n.span.stop) :
    n.tokens? code = some ts ↔ ∃ t, n.token? code = some t ∧ ts = [t] := by
  have hempty : n.span.isEmpty = false := by simpa [Span.isEmpty] using hne
  rw [tokens?, leaves_of_isLeaf h, hempty]
  exact mapM_singleton_eq_some_iff

theorem tokensOf?_append_eq_some_iff :
    tokensOf? code (ms ++ ns) = some ts ↔
      ∃ us vs, tokensOf? code ms = some us ∧ tokensOf? code ns = some vs ∧ ts = us ++ vs := by
  rw [tokensOf?, List.flatMap_append]
  exact mapM_append_eq_some_iff

theorem tokensOf?_cons_eq_some_iff :
    tokensOf? code (n :: ns) = some ts ↔
      ∃ us vs, n.tokens? code = some us ∧ tokensOf? code ns = some vs ∧ ts = us ++ vs := by
  rw [tokensOf?, List.flatMap_cons]
  exact mapM_append_eq_some_iff

/-- Every token of some nodes is the token of a leaf of theirs. -/
theorem exists_leaf_of_tokensOf? (h : tokensOf? code ns = some ts) {t : Token} (ht : t ∈ ts) :
    ∃ n ∈ ns, ∃ l ∈ n.leaves, l.token? code = some t := by
  obtain ⟨l, hl, hlt⟩ := exists_mem_of_mem_mapM h ht
  obtain ⟨n, hn, hl⟩ := List.mem_flatMap.1 hl
  exact ⟨n, hn, l, hl, hlt⟩

/-- The last token of a tight node stops where the node stops. -/
theorem exists_tokens?_eq_concat (h : ∀ m, n.Contains m → m.Tight)
    (ht : n.tokens? code = some ts) :
    ∃ us t l, ts = us ++ [t] ∧ n.leaves.getLast? = some l ∧ l.token? code = some t ∧
      t.span.stop = n.span.stop := by
  obtain ⟨ls, l, hls, hstop⟩ := exists_leaves_eq_concat h
  rw [tokens?, hls] at ht
  obtain ⟨us, vs, -, hvs, rfl⟩ := mapM_append_eq_some_iff.1 ht
  obtain ⟨t, hlt, rfl⟩ := mapM_singleton_eq_some_iff.1 hvs
  have hspan : t.span = l.span := (token?_eq_some_iff.1 hlt).2.1
  exact ⟨us, t, l, rfl, by rw [hls, List.getLast?_concat], hlt, by rw [hspan, hstop]⟩

end Node

/-- The tokens of a shown node are a stretch of the tokens of the tree. -/
theorem Tree.exists_tokens?_of_shows {tree : Tree} {code : List Char} {tokens : List Token}
    {m : Node} (h : tree.tokens? code = some tokens) (hm : tree.root.Shows m) :
    ∃ before ts after, m.tokens? code = some ts ∧ tokens = before ++ (ts ++ after) := by
  obtain ⟨ls, rs, hleaves⟩ := hm.exists_leaves_eq_append
  rw [Tree.tokens?, hleaves] at h
  obtain ⟨before, rest, -, hrest, rfl⟩ := mapM_append_eq_some_iff.1 h
  obtain ⟨ts, after, hts, -, rfl⟩ := mapM_append_eq_some_iff.1 hrest
  exact ⟨before, ts, after, hts, rfl⟩

end ParenGap
