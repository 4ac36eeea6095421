import Mathlib.Tactic
import ParenGap.Proofs.Tree.Nesting

/-!
# Preorder

A node of a tree may be equal to another one, so it is told apart by the path of child indexes that
leads to it. In the lexicographic order of paths a node comes before its descendants, and these come
before the next sibling; a list of occurrences in that order has each of them once. `Node.Lists`
says that a list holds exactly the occurrences with a property, in preorder.

The occurrences below a node that no atomic node hides are listed by a recursion on the node
(`lists_shown`), and its visible leaves are those of them that are visible (`leaves_eq`).
-/

set_option autoImplicit false

namespace ParenGap

/-- A node, and the path of child indexes that leads to it. -/
structure Occurrence where
  path : List Nat
  node : Node

namespace Node

/-- No node before the end of the path is of an atomic kind. -/
def Exposes (root : Node) (path : List Nat) : Prop :=
  ∀ before a, before <+: path → before ≠ path → root.descend? before = some a →
    a.kind ∉ atomicKinds

/-- The node covers some bytes, and has no children or is of an atomic kind. -/
def Visible (n : Node) : Prop :=
  n.span.start < n.span.stop ∧ (n.children = [] ∨ n.kind ∈ atomicKinds)

/-- The list has the occurrences with a property, in preorder and each of them once. -/
structure Lists (root : Node) (P : Occurrence → Prop) (os : List Occurrence) : Prop where
  preorder : os.Pairwise fun a b => a.path < b.path
  mem_iff : ∀ o, o ∈ os ↔ root.descend? o.path = some o.node ∧ P o

mutual

/-- The occurrences below a node that no atomic node hides, in preorder. -/
def shown : Node → List Occurrence
  | ⟨kind, span, named, extra, role, children⟩ =>
      ⟨[], ⟨kind, span, named, extra, role, children⟩⟩ ::
        if isLeaf ⟨kind, span, named, extra, role, children⟩ then [] else shownOf 0 children

/-- The occurrences below the nodes of a list; the first of them is the child with the index `i`. -/
def shownOf (i : Nat) : List Node → List Occurrence
  | [] => []
  | n :: ns => (n.shown.map fun o => ⟨i :: o.path, o.node⟩) ++ shownOf (i + 1) ns

end

/-- The occurrences below the nodes of a list, each node having those that `below` gives; the first
node is the child with the index `i`. -/
def branch (below : Node → List Occurrence) (i : Nat) : List Node → List Occurrence
  | [] => []
  | n :: ns => ((below n).map fun o => ⟨i :: o.path, o.node⟩) ++ branch below (i + 1) ns

instance (n : Node) : Decidable n.Visible := by
  unfold Visible
  infer_instance

section Preorder

variable {n m c : Node} {ns : List Node} {path : List Nat} {i : Nat} {o : Occurrence}
  {P Q : Occurrence → Prop} {os : List Occurrence} {below : Node → List Occurrence}

theorem shown_of_isLeaf (h : n.isLeaf = true) : n.shown = [⟨[], n⟩] := by
  obtain ⟨kind, span, named, extra, role, children⟩ := n
  rw [shown, if_pos h]

theorem shownOf_eq_branch (i : Nat) (ns : List Node) : shownOf i ns = branch shown i ns := by
  induction ns generalizing i with
  | nil => rfl
  | cons n ns ih => rw [shownOf, ih, branch]

theorem shown_of_not_isLeaf (h : n.isLeaf = false) :
    n.shown = ⟨[], n⟩ :: branch shown 0 n.children := by
  obtain ⟨kind, span, named, extra, role, children⟩ := n
  rw [shown, if_neg (by simp [h]), shownOf_eq_branch]

theorem visible_iff : n.Visible ↔ n.isLeaf = true ∧ n.span.isEmpty = false := by
  rw [isLeaf_eq_true_iff, Span.isEmpty, decide_eq_false_iff_not, Nat.not_le]
  exact and_comm

theorem exposes_nil : n.Exposes [] := by
  intro before a hprefix hne _
  exact absurd (List.prefix_nil.1 hprefix) hne

theorem descend?_cons : n.descend? (i :: path) = some m ↔
    ∃ c, n.children[i]? = some c ∧ c.descend? path = some m := by
  rw [descend?, Option.bind_eq_some_iff]

/-- What lies below a child is exposed if the node is not atomic and the child exposes it. -/
theorem exposes_cons (hc : n.children[i]? = some c) :
    n.Exposes (i :: path) ↔ n.kind ∉ atomicKinds ∧ c.Exposes path := by
  constructor
  · intro h
    refine ⟨h [] n List.nil_prefix (List.cons_ne_nil i path).symm rfl, ?_⟩
    intro before a hprefix hne ha
    refine h (i :: before) a ((List.prefix_cons_inj i).2 hprefix) ?_ (descend?_cons.2 ⟨c, hc, ha⟩)
    intro heq
    exact hne (List.cons.inj heq).2
  · rintro ⟨hkind, h⟩ before a hprefix hne ha
    -- the node itself is the end of the shortest way
    rcases List.prefix_cons_iff.1 hprefix with rfl | ⟨rest, rfl, hrest⟩
    · obtain rfl := Option.some.inj ha
      exact hkind
    · obtain ⟨d, hd, ha⟩ := descend?_cons.1 ha
      obtain rfl := Option.some.inj (hc.symm.trans hd)
      exact h rest a hrest (fun heq => hne (congrArg (i :: ·) heq)) ha

theorem mem_branch_iff : o ∈ branch below i ns ↔
    ∃ j c p, ns[j]? = some c ∧ o.path = (i + j) :: p ∧ ⟨p, o.node⟩ ∈ below c := by
  induction ns generalizing i with
  | nil => simp [branch]
  | cons n ns ih =>
      rw [branch, List.mem_append, List.mem_map, ih]
      constructor
      · rintro (⟨o', ho', rfl⟩ | ⟨j, c, p, hc, hp, ho⟩)
        · exact ⟨0, n, o'.path, rfl, rfl, ho'⟩
        · exact ⟨j + 1, c, p, hc, by rw [hp, Nat.add_right_comm, Nat.add_assoc], ho⟩
      · rintro ⟨j, c, p, hc, hp, ho⟩
        cases j with
        | zero =>
            obtain rfl := Option.some.inj hc
            obtain ⟨path, m⟩ := o
            obtain rfl : path = i :: p := hp
            exact Or.inl ⟨⟨p, m⟩, ho, rfl⟩
        | succ j =>
            exact Or.inr ⟨j, c, p, hc, by rw [hp, Nat.add_right_comm, Nat.add_assoc], ho⟩

/-- The shown occurrences are those that the node exposes. -/
theorem mem_shown_iff :
    o ∈ n.shown ↔ n.descend? o.path = some o.node ∧ n.Exposes o.path := by
  obtain ⟨path, m⟩ := o
  induction n using induction_on_children generalizing path m with
  | step n ih =>
      -- below a leaf nothing is exposed: it has no children, or it hides them
      cases hleaf : n.isLeaf with
      | true =>
          rw [shown_of_isLeaf hleaf, List.mem_singleton]
          constructor
          · intro h
            obtain ⟨rfl, rfl⟩ := Occurrence.mk.inj h
            exact ⟨rfl, exposes_nil⟩
          · rintro ⟨hm, hexposes⟩
            cases path with
            | nil =>
                obtain rfl := Option.some.inj hm
                rfl
            | cons i path =>
                obtain ⟨c, hc, -⟩ := descend?_cons.1 hm
                rcases isLeaf_eq_true_iff.1 hleaf with hnil | hkind
                · rw [hnil, List.getElem?_nil] at hc
                  cases hc
                · exact absurd hkind ((exposes_cons hc).1 hexposes).1
      | false =>
          rw [shown_of_not_isLeaf hleaf, List.mem_cons, mem_branch_iff]
          constructor
          · rintro (h | ⟨j, c, p, hc, hp, ho⟩)
            · obtain ⟨rfl, rfl⟩ := Occurrence.mk.inj h
              exact ⟨rfl, exposes_nil⟩
            · obtain rfl : path = (0 + j) :: p := hp
              rw [Nat.zero_add]
              obtain ⟨hm, hexposes⟩ := (ih c (List.mem_of_getElem? hc) p m).1 ho
              exact ⟨descend?_cons.2 ⟨c, hc, hm⟩,
                (exposes_cons hc).2 ⟨(isLeaf_eq_false_iff.1 hleaf).2, hexposes⟩⟩
          · rintro ⟨hm, hexposes⟩
            cases path with
            | nil =>
                obtain rfl := Option.some.inj hm
                exact Or.inl rfl
            | cons i path =>
                obtain ⟨c, hc, hm⟩ := descend?_cons.1 hm
                have hshown := (ih c (List.mem_of_getElem? hc) path m).2
                  ⟨hm, ((exposes_cons hc).1 hexposes).2⟩
                exact Or.inr ⟨i, c, path, hc, by rw [Nat.zero_add], hshown⟩

theorem branch_preorder
    (h : ∀ n ∈ ns, (below n).Pairwise fun a b => a.path < b.path) :
    (branch below i ns).Pairwise fun a b => a.path < b.path := by
  induction ns generalizing i with
  | nil => exact .nil
  | cons n ns ih =>
      rw [branch, List.pairwise_append, List.pairwise_map]
      refine ⟨(h n List.mem_cons_self).imp fun hab => List.Lex.cons hab,
        ih fun m hm => h m (List.mem_cons_of_mem n hm), ?_⟩
      -- whatever comes below the next nodes has a path with a later index first
      intro a ha b hb
      obtain ⟨a, -, rfl⟩ := List.mem_map.1 ha
      obtain ⟨j, c, p, -, hp, -⟩ := mem_branch_iff.1 hb
      rw [hp]
      exact List.Lex.rel (by omega)

theorem shown_preorder (n : Node) : n.shown.Pairwise fun a b => a.path < b.path := by
  induction n using induction_on_children with
  | step n ih =>
      cases hleaf : n.isLeaf with
      | true =>
          rw [shown_of_isLeaf hleaf]
          exact List.pairwise_singleton _ _
      | false =>
          rw [shown_of_not_isLeaf hleaf, List.pairwise_cons]
          refine ⟨fun b hb => ?_, branch_preorder ih⟩
          obtain ⟨j, c, p, -, hp, -⟩ := mem_branch_iff.1 hb
          rw [hp]
          exact List.Lex.nil

/-- The recursion on the node lists the occurrences that it exposes. -/
theorem lists_shown (n : Node) : n.Lists (fun o => n.Exposes o.path) n.shown :=
  ⟨n.shown_preorder, fun _ => mem_shown_iff⟩

theorem Lists.filter {p : Occurrence → Bool} (h : n.Lists P os) (hp : ∀ o, p o = true ↔ Q o) :
    n.Lists (fun o => P o ∧ Q o) (os.filter p) := by
  refine ⟨h.preorder.filter p, fun o => ?_⟩
  rw [List.mem_filter, h.mem_iff, hp, and_assoc]

theorem map_node_branch :
    (branch below i ns).map Occurrence.node = ns.flatMap fun n => (below n).map Occurrence.node := by
  induction ns generalizing i with
  | nil => rfl
  | cons n ns ih =>
      rw [branch, List.map_append, List.map_map, ih, List.flatMap_cons]
      rfl

/-- The visible leaves of a node are the visible ones among the nodes that it exposes. -/
theorem leaves_eq (n : Node) :
    n.leaves = (n.shown.map Occurrence.node).filter fun m => decide m.Visible := by
  induction n using induction_on_children with
  | step n ih =>
      cases hleaf : n.isLeaf with
      | true =>
          rw [leaves_of_isLeaf hleaf, shown_of_isLeaf hleaf, List.map_singleton,
            List.filter_singleton]
          cases hempty : n.span.isEmpty <;> simp [visible_iff, hleaf, hempty]
      | false =>
          have hnot : ¬n.Visible := by
            rw [visible_iff, hleaf]
            exact fun h => Bool.false_ne_true h.1
          rw [leaves_of_not_isLeaf hleaf, shown_of_not_isLeaf hleaf, List.map_cons,
            List.filter_cons_of_neg (by simpa using hnot), map_node_branch, List.filter_flatMap]
          exact List.flatMap_congr fun c hc => ih c hc

end Preorder

end Node

end ParenGap
