import Mathlib.Tactic
import ParenGap.Proofs.Tree.Nesting
import ParenGap.Site

/-!
# The call sites of a tree

The sites of a tree are those of its nodes (`mem_sites_iff`). The callee of a site, without the
parentheses that group it, and its argument list are descendants of the invocation
(`site?_eq_some_iff`, `contains_ungrouped`).
-/

set_option autoImplicit false

namespace ParenGap.Node

variable {n m : Node} {site : Site}

theorem ungroupedFirst_eq (ns : List Node) :
    ungroupedFirst ns = (ns.find? fun n => n.named && !n.extra).map ungrouped := by
  induction ns with
  | nil => rfl
  | cons n ns ih =>
      rw [ungroupedFirst, List.find?_cons]
      cases n.named && !n.extra with
      | true => rfl
      | false => exact ih

/-- The parentheses around a node are taken off one pair after the other. -/
theorem ungrouped_eq (n : Node) :
    n.ungrouped = if n.kind == "parenthesized_expression" then
      (n.firstNamed?.map ungrouped).getD n else n := by
  obtain ⟨kind, span, named, extra, role, children⟩ := n
  rw [ungrouped, ungroupedFirst_eq]
  rfl

/-- What is left of a node without the parentheses around it is shown. -/
theorem shows_ungrouped (n : Node) : n.Shows n.ungrouped := by
  induction n using induction_on_children with
  | step n ih =>
      rw [ungrouped_eq]
      split
      · rename_i hkind
        rw [beq_iff_eq] at hkind
        cases hfirst : n.firstNamed? with
        | none => exact .refl n
        | some c =>
            have hc : c ∈ n.children := List.mem_of_find?_eq_some hfirst
            have hleaf : n.isLeaf = false :=
              isLeaf_eq_false_of_mem hc (by simp [hkind, atomicKinds])
            exact .child hleaf hc (ih c hc)
      · exact .refl n

/-- What is left of a node without the parentheses around it lies inside of it. -/
theorem contains_ungrouped (n : Node) : n.Contains n.ungrouped := n.shows_ungrouped.contains

theorem sites_eq (n : Node) : n.sites = n.site?.toList ++ n.children.flatMap sites := by
  have hlist : ∀ ns : List Node, sitesOf ns = ns.flatMap sites := by
    intro ns
    induction ns with
    | nil => rfl
    | cons n ns ih => rw [sitesOf, ih, List.flatMap_cons]
  obtain ⟨kind, span, named, extra, role, children⟩ := n
  rw [sites, hlist]

/-- The sites of a tree are those of its nodes. -/
theorem mem_sites_iff : site ∈ n.sites ↔ ∃ m, n.Contains m ∧ m.site? = some site := by
  constructor
  · intro h
    induction n using induction_on_children with
    | step n ih =>
        rw [sites_eq, List.mem_append, Option.mem_toList, List.mem_flatMap] at h
        rcases h with h | ⟨c, hc, h⟩
        · exact ⟨n, .refl n, h⟩
        · obtain ⟨m, hm, hsite⟩ := ih c hc h
          exact ⟨m, .child hc hm, hsite⟩
  · rintro ⟨m, hm, hsite⟩
    induction hm with
    | refl n =>
        rw [sites_eq, List.mem_append, Option.mem_toList]
        exact Or.inl hsite
    | child hc _ ih =>
        rw [sites_eq, List.mem_append, List.mem_flatMap]
        exact Or.inr ⟨_, hc, ih hsite⟩

/-- A site is an invocation with a callee. -/
theorem site?_eq_some_iff :
    n.site? = some site ↔ ∃ kind role callee, n.invocation? = some (kind, role) ∧
      n.child? role = some callee ∧
      site = ⟨kind, n.span, callee.ungrouped.span, n.argumentsStart?⟩ := by
  simp only [site?, Option.bind_eq_some_iff, Option.map_eq_some_iff, Prod.exists]
  constructor
  · rintro ⟨kind, role, hinvocation, callee, hcallee, rfl⟩
    exact ⟨kind, role, callee, hinvocation, hcallee, rfl⟩
  · rintro ⟨kind, role, callee, hinvocation, hcallee, rfl⟩
    exact ⟨kind, role, hinvocation, callee, hcallee, rfl⟩

theorem mem_children_of_child? {role : Role} {c : Node} (h : n.child? role = some c) :
    c ∈ n.children :=
  List.mem_of_find?_eq_some h

/-- An invocation with a callee is no leaf. -/
theorem isLeaf_eq_false_of_invocation? {kind : CallKind} {role : Role} {callee : Node}
    (hinvocation : n.invocation? = some (kind, role)) (hcallee : n.child? role = some callee) :
    n.isLeaf = false := by
  refine isLeaf_eq_false_of_mem (mem_children_of_child? hcallee) ?_
  unfold invocation? at hinvocation
  split at hinvocation
  · rename_i hkind
    rw [beq_iff_eq] at hkind
    simp [hkind, atomicKinds]
  · split at hinvocation
    · rename_i hkind
      rw [beq_iff_eq] at hkind
      simp [hkind, atomicKinds]
    · cases hinvocation

/-- The invocations of a tree are shown if none of them lies below a node of an atomic kind. -/
theorem shows_of_invocation? {root : Node} {kind : CallKind} {role : Role}
    (hexposed : ∀ a n, root.Contains a → a.kind ∈ atomicKinds → a.Below n → n.invocation? = none)
    (hn : root.Contains n) (hinvocation : n.invocation? = some (kind, role)) : root.Shows n := by
  rcases hn.shows_or_hidden with hshows | ⟨a, ha, hleaf, hbelow⟩
  · exact hshows
  · -- a leaf that hides something has children, so it is of an atomic kind
    rcases isLeaf_eq_true_iff.1 hleaf with hnil | hatomic
    · exact absurd hnil hbelow.children_ne_nil
    · have hnone := hexposed a n ha.contains hatomic hbelow
      rw [hinvocation] at hnone
      cases hnone

/-- The callee of a site is a descendant of the invocation. -/
theorem exists_callee_below (h : n.site? = some site) :
    ∃ c, n.Below c ∧ site.callee = c.span := by
  obtain ⟨kind, role, callee, -, hcallee, rfl⟩ := site?_eq_some_iff.1 h
  exact ⟨callee.ungrouped, ⟨callee, mem_children_of_child? hcallee, contains_ungrouped callee⟩, rfl⟩

/-- The argument list of a site is a child of the invocation. -/
theorem exists_arguments_below (h : n.site? = some site) {o : Nat}
    (ho : site.argumentsStart = some o) : ∃ c, n.Below c ∧ o = c.span.start := by
  obtain ⟨kind, role, callee, -, -, rfl⟩ := site?_eq_some_iff.1 h
  simp only [argumentsStart?, Option.map_eq_some_iff, Option.filter_eq_some_iff] at ho
  obtain ⟨c, ⟨hc, -⟩, rfl⟩ := ho
  exact ⟨c, ⟨c, mem_children_of_child? hc, .refl c⟩, rfl⟩

end ParenGap.Node
