import Mathlib.Data.List.Forall2
import Mathlib.Tactic
import ParenGap.Proofs.Text.Slice
import ParenGap.Proofs.Token.Lookup
import ParenGap.Tree

/-!
# Well formed trees

The nodes of a tree lie inside of one another. If they do so in order and at places of the text,
then the tree gives a stream of tokens that lies in the text.
-/

set_option autoImplicit false

namespace ParenGap

/-! ## Nested trees

`Node.Contains` relates a node to its descendants and itself, `Node.Shows` to those of them that no
atomic node hides. The visible leaves of a node are the leaves that it shows (`mem_leaves_iff`), and
a shown node's leaves are a stretch of them (`Shows.exists_leaves_eq_append`).

A tree is well formed for a text if the children of every node are in order, do not overlap and lie
inside of it, and if all nodes start and stop at places of the text. The visible leaves of a well
formed tree are in order, and its tokens exist and lie in the text
(`Tree.WellFormed.exists_tokens?`, `Tree.WellFormed.liesIn`).
-/

namespace Node

/-- Induction on a node by its children. -/
theorem induction_on_children {P : Node → Prop}
    (step : ∀ n : Node, (∀ c ∈ n.children, P c) → P n) : ∀ n, P n
  | ⟨kind, span, named, extra, role, children⟩ =>
      step _ fun c hc => by
        have hlt := List.sizeOf_lt_of_mem (show c ∈ children from hc)
        exact induction_on_children step c
  termination_by n => sizeOf n
  decreasing_by
    simp only [mk.sizeOf_spec]
    omega

theorem leavesOf_eq_flatMap (ns : List Node) : leavesOf ns = ns.flatMap leaves := by
  induction ns with
  | nil => rfl
  | cons n ns ih => rw [leavesOf, ih, List.flatMap_cons]

theorem leaves_of_isLeaf {n : Node} (h : n.isLeaf = true) :
    n.leaves = if n.span.isEmpty then [] else [n] := by
  obtain ⟨kind, span, named, extra, role, children⟩ := n
  rw [leaves, if_pos h]

theorem leaves_of_not_isLeaf {n : Node} (h : n.isLeaf = false) :
    n.leaves = n.children.flatMap leaves := by
  obtain ⟨kind, span, named, extra, role, children⟩ := n
  rw [leaves, if_neg (by simp [h]), leavesOf_eq_flatMap]

theorem isLeaf_eq_true_iff {n : Node} :
    n.isLeaf = true ↔ n.children = [] ∨ n.kind ∈ atomicKinds := by
  simp [isLeaf]

theorem isLeaf_eq_false_iff {n : Node} :
    n.isLeaf = false ↔ n.children ≠ [] ∧ n.kind ∉ atomicKinds := by
  rw [← Bool.not_eq_true, isLeaf_eq_true_iff, not_or]

/-- A node with a child is no leaf, unless it is of an atomic kind. -/
theorem isLeaf_eq_false_of_mem {n c : Node} (hc : c ∈ n.children) (hkind : n.kind ∉ atomicKinds) :
    n.isLeaf = false :=
  isLeaf_eq_false_iff.2 ⟨List.ne_nil_of_mem hc, hkind⟩

/-- The second node is the first one or a descendant of it. -/
inductive Contains : Node → Node → Prop
  | refl (n : Node) : Contains n n
  | child {n c m : Node} : c ∈ n.children → Contains c m → Contains n m

/-- The second node is the first one or a descendant of it that no atomic node hides. -/
inductive Shows : Node → Node → Prop
  | refl (n : Node) : Shows n n
  | child {n c m : Node} : n.isLeaf = false → c ∈ n.children → Shows c m → Shows n m

/-- The second node is a proper descendant of the first one. -/
def Below (n m : Node) : Prop := ∃ c ∈ n.children, c.Contains m

theorem Contains.of_mem_children {n c : Node} (h : c ∈ n.children) : n.Contains c :=
  .child h (.refl c)

theorem Contains.trans {n m l : Node} (h : n.Contains m) (h' : m.Contains l) : n.Contains l := by
  induction h with
  | refl => exact h'
  | child hc _ ih => exact .child hc (ih h')

theorem Contains.eq_or_below {n m : Node} (h : n.Contains m) : n = m ∨ n.Below m := by
  cases h with
  | refl => exact Or.inl rfl
  | child hc h => exact Or.inr ⟨_, hc, h⟩

theorem Below.contains {n m : Node} (h : n.Below m) : n.Contains m := by
  obtain ⟨c, hc, h⟩ := h
  exact .child hc h

theorem Below.of_contains_mem_children {n m c : Node} (h : n.Contains m) (hc : c ∈ m.children) :
    n.Below c := by
  cases h with
  | refl => exact ⟨c, hc, .refl c⟩
  | child hd h => exact ⟨_, hd, h.trans (.of_mem_children hc)⟩

theorem Below.trans_contains {n m l : Node} (h : n.Below m) (h' : m.Contains l) : n.Below l := by
  obtain ⟨c, hc, h⟩ := h
  exact ⟨c, hc, h.trans h'⟩

theorem Below.children_ne_nil {n m : Node} (h : n.Below m) : n.children ≠ [] := by
  obtain ⟨c, hc, -⟩ := h
  exact List.ne_nil_of_mem hc

theorem Shows.contains {n m : Node} (h : n.Shows m) : n.Contains m := by
  induction h with
  | refl => exact .refl _
  | child _ hc _ ih => exact .child hc ih

theorem Shows.trans {n m l : Node} (h : n.Shows m) (h' : m.Shows l) : n.Shows l := by
  induction h with
  | refl => exact h'
  | child hleaf hc _ ih => exact .child hleaf hc (ih h')

/-- A descendant is shown, or a shown node hides it: one that makes a single token. -/
theorem Contains.shows_or_hidden {n m : Node} (h : n.Contains m) :
    n.Shows m ∨ ∃ a, n.Shows a ∧ a.isLeaf = true ∧ a.Below m := by
  induction h with
  | refl => exact Or.inl (.refl _)
  | @child n c m hc h ih =>
      cases hleaf : n.isLeaf with
      | true => exact Or.inr ⟨n, .refl n, hleaf, c, hc, h⟩
      | false =>
          rcases ih with ih | ⟨a, ha, haleaf, ham⟩
          · exact Or.inl (.child hleaf hc ih)
          · exact Or.inr ⟨a, .child hleaf hc ha, haleaf, ham⟩

/-- The visible leaves of a node are the leaves that it shows and that cover some bytes. -/
theorem mem_leaves_iff {n l : Node} :
    l ∈ n.leaves ↔ n.Shows l ∧ l.isLeaf = true ∧ l.span.isEmpty = false := by
  constructor
  · intro hl
    induction n using induction_on_children with
    | step n ih =>
        cases hleaf : n.isLeaf with
        | true =>
            rw [leaves_of_isLeaf hleaf] at hl
            split at hl
            · simp at hl
            · rename_i hempty
              obtain rfl := List.mem_singleton.1 hl
              exact ⟨.refl l, hleaf, by simpa using hempty⟩
        | false =>
            rw [leaves_of_not_isLeaf hleaf, List.mem_flatMap] at hl
            obtain ⟨c, hc, hl⟩ := hl
            obtain ⟨hshows, hrest⟩ := ih c hc hl
            exact ⟨.child hleaf hc hshows, hrest⟩
  · -- a shown leaf is a leaf of every node on the way to it
    rintro ⟨hshows, hleaf, hempty⟩
    induction hshows with
    | refl => simp [leaves_of_isLeaf hleaf, hempty]
    | child hn hc _ ih =>
        rw [leaves_of_not_isLeaf hn, List.mem_flatMap]
        exact ⟨_, hc, ih hleaf hempty⟩

/-- The visible leaves of a shown node are a stretch of the visible leaves. -/
theorem Shows.exists_leaves_eq_append {n m : Node} (h : n.Shows m) :
    ∃ before after, n.leaves = before ++ (m.leaves ++ after) := by
  induction h with
  | refl => exact ⟨[], [], by simp⟩
  | @child n c m hleaf hc _ ih =>
      obtain ⟨before, after, hm⟩ := ih
      obtain ⟨cs, ds, hsplit⟩ := List.append_of_mem hc
      refine ⟨cs.flatMap leaves ++ before, after ++ ds.flatMap leaves, ?_⟩
      rw [leaves_of_not_isLeaf hleaf, hsplit, List.flatMap_append, List.flatMap_cons, hm]
      simp only [List.append_assoc]

/-- The children of a node are in order, do not overlap, and lie inside of it. -/
structure Nested (n : Node) : Prop where
  inside : ∀ c ∈ n.children, n.span.start ≤ c.span.start ∧ c.span.stop ≤ n.span.stop
  ordered : n.children.Pairwise fun a b => a.span.stop ≤ b.span.start

/-- Descendants lie inside of a node. -/
theorem Contains.inside {n m : Node} (h : n.Contains m) (hn : ∀ l, n.Contains l → l.Nested) :
    n.span.start ≤ m.span.start ∧ m.span.stop ≤ n.span.stop := by
  induction h with
  | refl => exact ⟨le_rfl, le_rfl⟩
  | child hc _ ih =>
      obtain ⟨hstart, hstop⟩ := (hn _ (.refl _)).inside _ hc
      obtain ⟨hstart', hstop'⟩ := ih fun l hl => hn l (.child hc hl)
      exact ⟨hstart.trans hstart', hstop'.trans hstop⟩

/-- The visible leaves of nested nodes are in order and do not overlap. -/
theorem leaves_ordered {n : Node} (hn : ∀ m, n.Contains m → m.Nested) :
    n.leaves.Pairwise fun a b => a.span.stop ≤ b.span.start := by
  induction n using induction_on_children with
  | step n ih =>
      cases hleaf : n.isLeaf with
      | true =>
          rw [leaves_of_isLeaf hleaf]
          split <;> simp
      | false =>
          rw [leaves_of_not_isLeaf hleaf, List.pairwise_flatMap]
          have hchild : ∀ c ∈ n.children, ∀ m, c.Contains m → m.Nested :=
            fun c hc m hm => hn m (.child hc hm)
          refine ⟨fun c hc => ih c hc (hchild c hc), ?_⟩
          refine (hn n (.refl n)).ordered.imp_of_mem fun {c d} hc hd hcd x hx y hy => ?_
          have hxc := (mem_leaves_iff.1 hx).1.contains.inside (hchild c hc)
          have hyd := (mem_leaves_iff.1 hy).1.contains.inside (hchild d hd)
          omega

end Node

/-! ### Trees of a text -/

/-- Every node of the tree has its children in order and inside of it, and starts and stops at
places of the text. -/
structure Tree.WellFormed (tree : Tree) (code : List Char) : Prop where
  nested : ∀ n, tree.root.Contains n → n.Nested
  places : ∀ n, tree.root.Contains n →
    Text.IsPlace code n.span.start ∧ Text.IsPlace code n.span.stop

/-- The node covers some bytes, and its children reach from its start to its stop. -/
structure Node.Tight (n : Node) : Prop where
  nonempty : n.span.start < n.span.stop
  first : ∀ c ∈ n.children.head?, c.span.start = n.span.start
  last : ∀ c ∈ n.children.getLast?, c.span.stop = n.span.stop

/-- Below the root no node is of zero width, and every node with children starts where the first of
them starts and stops where the last of them stops. -/
def Tree.Tight (tree : Tree) : Prop := ∀ n, tree.root.Below n → n.Tight

section Tokens

variable {α β : Type}

theorem mapM_eq_some_iff {f : α → Option β} {xs : List α} {ys : List β} :
    xs.mapM f = some ys ↔ List.Forall₂ (fun x y => f x = some y) xs ys := by
  induction xs generalizing ys with
  | nil => cases ys <;> simp
  | cons x xs ih =>
      simp only [List.mapM_cons, Option.bind_eq_bind, Option.bind_eq_some_iff, ih, Option.pure_def,
        Option.some.injEq]
      constructor
      · rintro ⟨y, hy, ys', hys, rfl⟩
        exact .cons hy hys
      · intro h
        cases h with
        | cons hy hys => exact ⟨_, hy, _, hys, rfl⟩

theorem mapM_append_eq_some_iff {f : α → Option β} {xs ys : List α} {zs : List β} :
    (xs ++ ys).mapM f = some zs ↔
      ∃ as bs, xs.mapM f = some as ∧ ys.mapM f = some bs ∧ zs = as ++ bs := by
  simp only [List.mapM_append, Option.bind_eq_bind, Option.bind_eq_some_iff, Option.pure_def,
    Option.some.injEq]
  constructor
  · rintro ⟨as, has, bs, hbs, rfl⟩
    exact ⟨as, bs, has, hbs, rfl⟩
  · rintro ⟨as, bs, has, hbs, rfl⟩
    exact ⟨as, has, bs, hbs, rfl⟩

theorem mapM_singleton_eq_some_iff {f : α → Option β} {x : α} {ys : List β} :
    [x].mapM f = some ys ↔ ∃ y, f x = some y ∧ ys = [y] := by
  rw [mapM_eq_some_iff, List.forall₂_cons_left_iff]
  constructor
  · rintro ⟨y, ys', hy, hys, rfl⟩
    rw [List.forall₂_nil_left_iff] at hys
    exact ⟨y, hy, by rw [hys]⟩
  · rintro ⟨y, hy, rfl⟩
    exact ⟨y, [], hy, .nil, rfl⟩

theorem exists_mem_of_mem_mapM {f : α → Option β} {xs : List α} {ys : List β}
    (h : xs.mapM f = some ys) {y : β} (hy : y ∈ ys) : ∃ x ∈ xs, f x = some y := by
  have hall := mapM_eq_some_iff.1 h
  obtain ⟨i, hi, rfl⟩ := List.getElem_of_mem hy
  have hi' : i < xs.length := by rw [hall.length_eq]; exact hi
  exact ⟨_, List.getElem_mem hi', hall.get hi' hi⟩

theorem exists_forall₂_of_forall_exists {r : α → β → Prop} {xs : List α}
    (h : ∀ x ∈ xs, ∃ y, r x y) : ∃ ys, List.Forall₂ r xs ys := by
  induction xs with
  | nil => exact ⟨[], .nil⟩
  | cons x xs ih =>
      obtain ⟨y, hy⟩ := h x List.mem_cons_self
      obtain ⟨ys, hys⟩ := ih fun x' hx' => h x' (List.mem_cons_of_mem _ hx')
      exact ⟨y :: ys, .cons hy hys⟩

variable {tree : Tree} {code : List Char} {tokens : List Token}

/-- A leaf's token has the leaf's place and the text there. -/
theorem Node.token?_eq_some_iff {n : Node} {t : Token} :
    n.token? code = some t ↔
      Text.slice? code n.span.start n.span.stop = some t.text ∧ t.span = n.span ∧
        t.kind = n.tokenKind t.text := by
  obtain ⟨kind, span, text⟩ := t
  simp only [token?, Option.map_eq_some_iff, Token.mk.injEq]
  constructor
  · rintro ⟨text', htext, rfl, rfl, rfl⟩
    exact ⟨htext, rfl, rfl⟩
  · rintro ⟨htext, rfl, rfl⟩
    exact ⟨text, htext, rfl, rfl, rfl⟩

theorem Tree.tokens?_eq_some_iff :
    tree.tokens? code = some tokens ↔
      List.Forall₂ (fun n t => Node.token? code n = some t) tree.root.leaves tokens :=
  mapM_eq_some_iff

theorem Tree.map_span_tokens (h : tree.tokens? code = some tokens) :
    tokens.map Token.span = tree.root.leaves.map Node.span := by
  rw [Tree.tokens?_eq_some_iff] at h
  generalize tree.root.leaves = leaves at h
  induction h with
  | nil => rfl
  | cons ht _ ih => rw [List.map_cons, List.map_cons, ih, (Node.token?_eq_some_iff.1 ht).2.1]

theorem Tree.exists_leaf_of_mem_tokens (h : tree.tokens? code = some tokens) {t : Token}
    (ht : t ∈ tokens) : ∃ l ∈ tree.root.leaves, l.token? code = some t :=
  exists_mem_of_mem_mapM h ht

/-- The tokens of a tree exist if and only if all its visible leaves start and stop at places of the
text. -/
theorem Tree.exists_tokens?_iff :
    (∃ tokens, tree.tokens? code = some tokens) ↔
      ∀ l ∈ tree.root.leaves, Text.IsPlace code l.span.start ∧ Text.IsPlace code l.span.stop := by
  constructor
  · rintro ⟨tokens, htokens⟩ l hl
    obtain ⟨i, hi, rfl⟩ := List.getElem_of_mem hl
    have hall := Tree.tokens?_eq_some_iff.1 htokens
    have hget := hall.get hi (by rw [← hall.length_eq]; exact hi)
    exact Text.isPlace_of_slice? (Node.token?_eq_some_iff.1 hget).1
  · intro hplaces
    have hleaf : ∀ l ∈ tree.root.leaves, ∃ t, l.token? code = some t := by
      intro l hl
      have hempty := (Node.mem_leaves_iff.1 hl).2.2
      have hlt : l.span.start < l.span.stop := by simpa [Span.isEmpty] using hempty
      obtain ⟨hstart, hstop⟩ := hplaces l hl
      obtain ⟨text, htext⟩ := hstart.exists_slice? hstop hlt.le
      exact ⟨⟨l.tokenKind text, l.span, text⟩, Node.token?_eq_some_iff.2 ⟨htext, rfl, rfl⟩⟩
    obtain ⟨tokens, htokens⟩ := exists_forall₂_of_forall_exists hleaf
    exact ⟨tokens, Tree.tokens?_eq_some_iff.2 htokens⟩

/-- All leaves of a well formed tree stand in the text. -/
theorem Tree.WellFormed.exists_tokens? (h : tree.WellFormed code) :
    ∃ tokens, tree.tokens? code = some tokens := by
  rw [Tree.exists_tokens?_iff]
  intro l hl
  exact h.places l (Node.mem_leaves_iff.1 hl).1.contains

/-- The tokens of nested nodes are in order. -/
theorem Tree.inOrder_of_nested (h : ∀ n, tree.root.Contains n → n.Nested)
    (ht : tree.tokens? code = some tokens) : (TokenStream.ofList tokens).InOrder := by
  constructor
  · intro t htmem
    obtain ⟨l, hl, hlt⟩ := Tree.exists_leaf_of_mem_tokens ht htmem
    have hempty := (Node.mem_leaves_iff.1 hl).2.2
    rw [(Node.token?_eq_some_iff.1 hlt).2.1]
    simpa [Span.isEmpty] using hempty
  · -- the order of the leaves is a matter of their spans, which the tokens share
    have hspans : (tree.root.leaves.map Node.span).Pairwise fun a b => a.stop ≤ b.start :=
      List.pairwise_map.2 (Node.leaves_ordered h)
    rw [← Tree.map_span_tokens ht] at hspans
    exact List.pairwise_map.1 hspans

/-- A token has the characters that stand in its place. -/
theorem Tree.slice?_of_mem_tokens (ht : tree.tokens? code = some tokens) {t : Token}
    (htmem : t ∈ tokens) : Text.slice? code t.span.start t.span.stop = some t.text := by
  obtain ⟨l, -, hlt⟩ := Tree.exists_leaf_of_mem_tokens ht htmem
  obtain ⟨htext, hspan, -⟩ := Node.token?_eq_some_iff.1 hlt
  rw [hspan]
  exact htext

/-- The tokens of a well formed tree are in order and lie in the text. -/
theorem Tree.WellFormed.liesIn (h : tree.WellFormed code) (ht : tree.tokens? code = some tokens) :
    (TokenStream.ofList tokens).LiesIn code :=
  ⟨Tree.inOrder_of_nested h.nested ht, fun _ htmem => Tree.slice?_of_mem_tokens ht htmem⟩

end Tokens

/-! ## Deciding the shape of a tree

The descendants of a node form a finite list (`contains_iff_mem_descendants`), so that a property of
all nodes of a tree is decided by looking at each of them. Whether a tree is well formed for a text
and whether it is tight can thus be evaluated.
-/

namespace Node

mutual

/-- A node and its descendants, in preorder. -/
def descendants : Node → List Node
  | ⟨kind, span, named, extra, role, children⟩ =>
      ⟨kind, span, named, extra, role, children⟩ :: descendantsOf children

/-- The nodes of a list and their descendants. -/
def descendantsOf : List Node → List Node
  | [] => []
  | n :: ns => n.descendants ++ descendantsOf ns

end

theorem descendantsOf_eq_flatMap (ns : List Node) : descendantsOf ns = ns.flatMap descendants := by
  induction ns with
  | nil => rfl
  | cons n ns ih => rw [descendantsOf, ih, List.flatMap_cons]

theorem descendants_eq_cons (n : Node) : n.descendants = n :: descendantsOf n.children := by
  obtain ⟨kind, span, named, extra, role, children⟩ := n
  rfl

theorem contains_iff_mem_descendants {n m : Node} : n.Contains m ↔ m ∈ n.descendants := by
  constructor
  · intro h
    induction h with
    | refl n =>
        rw [descendants_eq_cons]
        exact List.mem_cons_self
    | child hc _ ih =>
        rw [descendants_eq_cons, descendantsOf_eq_flatMap]
        exact List.mem_cons_of_mem _ (List.mem_flatMap.2 ⟨_, hc, ih⟩)
  · intro h
    induction n using induction_on_children with
    | step n ih =>
        rw [descendants_eq_cons, descendantsOf_eq_flatMap] at h
        rcases List.mem_cons.1 h with rfl | h
        · exact .refl m
        · obtain ⟨c, hc, h⟩ := List.mem_flatMap.1 h
          exact .child hc (ih c hc h)

theorem below_iff_mem_descendantsOf {n m : Node} : n.Below m ↔ m ∈ descendantsOf n.children := by
  rw [descendantsOf_eq_flatMap, List.mem_flatMap]
  constructor
  · rintro ⟨c, hc, h⟩
    exact ⟨c, hc, contains_iff_mem_descendants.1 h⟩
  · rintro ⟨c, hc, h⟩
    exact ⟨c, hc, contains_iff_mem_descendants.2 h⟩

instance (n : Node) : Decidable n.Nested :=
  decidable_of_iff
    ((∀ c ∈ n.children, n.span.start ≤ c.span.start ∧ c.span.stop ≤ n.span.stop) ∧
      n.children.Pairwise fun a b => a.span.stop ≤ b.span.start)
    ⟨fun h => ⟨h.1, h.2⟩, fun h => ⟨h.1, h.2⟩⟩

instance (n : Node) : Decidable n.Tight :=
  decidable_of_iff (n.span.start < n.span.stop ∧
      (∀ c ∈ n.children.head?, c.span.start = n.span.start) ∧
      ∀ c ∈ n.children.getLast?, c.span.stop = n.span.stop)
    ⟨fun h => ⟨h.1, h.2.1, h.2.2⟩, fun h => ⟨h.1, h.2, h.3⟩⟩

end Node

instance (code : List Char) (n : Nat) : Decidable (Text.IsPlace code n) :=
  decidable_of_iff _ Text.isPlace_iff_cut?.symm

instance (tree : Tree) (code : List Char) : Decidable (tree.WellFormed code) :=
  decidable_of_iff (∀ n ∈ tree.root.descendants, n.Nested ∧
      Text.IsPlace code n.span.start ∧ Text.IsPlace code n.span.stop)
    ⟨fun h => ⟨fun n hn => (h n (Node.contains_iff_mem_descendants.1 hn)).1,
        fun n hn => (h n (Node.contains_iff_mem_descendants.1 hn)).2⟩,
      fun h n hn => ⟨h.nested n (Node.contains_iff_mem_descendants.2 hn),
        h.places n (Node.contains_iff_mem_descendants.2 hn)⟩⟩

instance (tree : Tree) : Decidable tree.Tight :=
  decidable_of_iff (∀ n ∈ Node.descendantsOf tree.root.children, n.Tight)
    ⟨fun h n hn => h n (Node.below_iff_mem_descendantsOf.1 hn),
      fun h n hn => h n (Node.below_iff_mem_descendantsOf.2 hn)⟩

/-! ### A grouped callee -/

/-- A node for a fixed piece of text. -/
def Node.mark (text : String) (start : Nat) : Node :=
  ⟨text, ⟨start, start + 1⟩, false, false, none, []⟩

/-- The tree of `(f) (0)`. -/
def groupedTree : Tree where
  root := ⟨"program", ⟨0, 7⟩, true, false, none,
    [⟨"expression_statement", ⟨0, 7⟩, true, false, none,
      [⟨"call_expression", ⟨0, 7⟩, true, false, none,
        [⟨"parenthesized_expression", ⟨0, 3⟩, true, false, some .function,
          [.mark "(" 0, ⟨"identifier", ⟨1, 2⟩, true, false, none, []⟩, .mark ")" 2]⟩,
        ⟨"arguments", ⟨4, 7⟩, true, false, some .arguments,
          [.mark "(" 4, ⟨"number", ⟨5, 6⟩, true, false, none, []⟩, .mark ")" 6]⟩]⟩]⟩]⟩
  hasError := false

/-- The tree of `(f)(0)`. -/
def closedTree : Tree where
  root := ⟨"program", ⟨0, 6⟩, true, false, none,
    [⟨"expression_statement", ⟨0, 6⟩, true, false, none,
      [⟨"call_expression", ⟨0, 6⟩, true, false, none,
        [⟨"parenthesized_expression", ⟨0, 3⟩, true, false, some .function,
          [.mark "(" 0, ⟨"identifier", ⟨1, 2⟩, true, false, none, []⟩, .mark ")" 2]⟩,
        ⟨"arguments", ⟨3, 6⟩, true, false, some .arguments,
          [.mark "(" 3, ⟨"number", ⟨4, 5⟩, true, false, none, []⟩, .mark ")" 5]⟩]⟩]⟩]⟩
  hasError := false

example : groupedTree.WellFormed ['(', 'f', ')', ' ', '(', '0', ')'] ∧ groupedTree.Tight := by
  decide

end ParenGap
