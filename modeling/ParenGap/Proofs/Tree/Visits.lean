import Mathlib.Tactic
import ParenGap.Proofs.Tree.Nesting
import ParenGap.Proofs.Tree.Preorder
import ParenGap.Proofs.Tree.Sites

/-!
# The order of visits

The invocations of a tree are visited in preorder. Of two occurrences the earlier one contains the
later one or stops before it starts (`Node.prefix_or_before`). So if invocations cover some bytes,
the sites in preorder are already in the order of their starts, the one that reaches further first,
and sorting leaves them where they are (`Tree.sites_eq`). They are the sites of the invocations that
have a callee, one for each of them (`Tree.sites_preorder`).

`Node.Describes` says what the site of an invocation is. Its callee is reached by stepping into
parentheses (`Node.Strips`), which ends in exactly one node (`Node.strips_iff`).
-/

set_option autoImplicit false

namespace ParenGap

namespace Node

mutual

/-- All occurrences below a node, in preorder. -/
def occurrences : Node → List Occurrence
  | ⟨kind, span, named, extra, role, children⟩ =>
      ⟨[], ⟨kind, span, named, extra, role, children⟩⟩ :: occurrencesOf 0 children

/-- All occurrences below the nodes of a list; the first of them is the child with the index `i`. -/
def occurrencesOf (i : Nat) : List Node → List Occurrence
  | [] => []
  | n :: ns => (n.occurrences.map fun o => ⟨i :: o.path, o.node⟩) ++ occurrencesOf (i + 1) ns

end

/-- The node is the first one of a list with a property. -/
def FirstOf (P : Node → Prop) (ns : List Node) (c : Node) : Prop :=
  P c ∧ ∃ before after, ns = before ++ c :: after ∧ ∀ d ∈ before, ¬P d

/-- The child is the one that plays a part. -/
def Plays (n : Node) (role : Role) (c : Node) : Prop :=
  FirstOf (fun d => d.role = some role) n.children c

/-- The node stands for a pair of parentheses, and the child for what they hold. -/
def Wraps (n c : Node) : Prop :=
  n.kind = "parenthesized_expression" ∧
    FirstOf (fun d => d.named = true ∧ d.extra = false) n.children c

/-- Stepping into parentheses leads from the first node to the second one. -/
inductive Strips : Node → Node → Prop
  | stop {n : Node} : (∀ c, ¬n.Wraps c) → Strips n n
  | step {n c m : Node} : n.Wraps c → Strips c m → Strips n m

/-- The node is an invocation, of a certain kind, of a callee. -/
def Invokes (n : Node) : CallKind → Node → Prop
  | .call, c => n.kind = "call_expression" ∧ n.Plays .function c
  | .construct, c => n.kind = "new_expression" ∧ n.Plays .constructor c

/-- The node is a call or a constructor invocation, with a callee or without. -/
def IsInvocation (n : Node) : Prop := n.kind = "call_expression" ∨ n.kind = "new_expression"

instance (n : Node) : Decidable n.IsInvocation :=
  inferInstanceAs (Decidable (n.kind = "call_expression" ∨ n.kind = "new_expression"))

/-- The site tells the place of an invocation, its callee without the parentheses that group it, and
the start of its argument list. -/
structure Describes (n : Node) (site : Site) : Prop where
  span_eq : site.span = n.span
  callee : ∃ callee inner, n.Invokes site.kind callee ∧ (∀ m, callee.Strips m ↔ m = inner) ∧
    site.callee = inner.span
  arguments : ∀ o, site.argumentsStart = some o ↔
    ∃ c, n.Plays .arguments c ∧ c.kind = "arguments" ∧ o = c.span.start

/-! ## Occurrences -/

section Occurrences

variable {n m l : Node} {o : Occurrence} {path rest p q : List Nat} {P : Occurrence → Prop}

theorem occurrencesOf_eq_branch (i : Nat) (ns : List Node) :
    occurrencesOf i ns = branch occurrences i ns := by
  induction ns generalizing i with
  | nil => rfl
  | cons n ns ih => rw [occurrencesOf, ih, branch]

theorem occurrences_eq_cons (n : Node) :
    n.occurrences = ⟨[], n⟩ :: branch occurrences 0 n.children := by
  obtain ⟨kind, span, named, extra, role, children⟩ := n
  rw [occurrences, occurrencesOf_eq_branch]

theorem mem_occurrences_iff : o ∈ n.occurrences ↔ n.descend? o.path = some o.node := by
  obtain ⟨path, m⟩ := o
  induction n using induction_on_children generalizing path m with
  | step n ih =>
      rw [occurrences_eq_cons, List.mem_cons, mem_branch_iff]
      constructor
      · rintro (h | ⟨j, c, p, hc, hp, ho⟩)
        · obtain ⟨rfl, rfl⟩ := Occurrence.mk.inj h
          rfl
        · obtain rfl : path = (0 + j) :: p := hp
          rw [Nat.zero_add]
          exact descend?_cons.2 ⟨c, hc, (ih c (List.mem_of_getElem? hc) p m).1 ho⟩
      · intro hm
        cases path with
        | nil =>
            obtain rfl := Option.some.inj hm
            exact Or.inl rfl
        | cons i path =>
            obtain ⟨c, hc, hm⟩ := descend?_cons.1 hm
            refine Or.inr ⟨i, c, path, hc, by rw [Nat.zero_add], ?_⟩
            exact (ih c (List.mem_of_getElem? hc) path m).2 hm

theorem occurrences_preorder (n : Node) : n.occurrences.Pairwise fun a b => a.path < b.path := by
  induction n using induction_on_children with
  | step n ih =>
      rw [occurrences_eq_cons, List.pairwise_cons]
      refine ⟨fun b hb => ?_, branch_preorder ih⟩
      obtain ⟨j, c, p, -, hp, -⟩ := mem_branch_iff.1 hb
      rw [hp]
      exact List.Lex.nil

/-- The occurrences with a property are listed by picking them out. -/
theorem lists_filter_occurrences (n : Node) {p : Occurrence → Bool} (hp : ∀ o, p o = true ↔ P o) :
    n.Lists P (n.occurrences.filter p) := by
  refine ⟨n.occurrences_preorder.filter p, fun o => ?_⟩
  rw [List.mem_filter, mem_occurrences_iff, hp]

theorem descend?_append :
    n.descend? (path ++ rest) = (n.descend? path).bind fun m => m.descend? rest := by
  induction path generalizing n with
  | nil => rfl
  | cons i path ih =>
      rw [List.cons_append, descend?, descend?, Option.bind_assoc]
      exact Option.bind_congr fun c _ => ih

theorem contains_of_descend? (h : n.descend? path = some m) : n.Contains m := by
  induction path generalizing n with
  | nil =>
      obtain rfl := Option.some.inj h
      exact .refl n
  | cons i path ih =>
      obtain ⟨c, hc, hm⟩ := descend?_cons.1 h
      exact .child (List.mem_of_getElem? hc) (ih hm)

/-- A node contains those whose paths go on from its own. -/
theorem contains_of_beginning (hm : n.descend? p = some m) (hl : n.descend? q = some l)
    (h : p <+: q) : m.Contains l := by
  obtain ⟨rest, rfl⟩ := h
  rw [descend?_append, hm, Option.bind_some] at hl
  exact contains_of_descend? hl

/-- Of two nodes the earlier one contains the later one, or it stops before the later one starts. -/
theorem prefix_or_before (hnested : ∀ m, n.Contains m → m.Nested) (hm : n.descend? p = some m)
    (hl : n.descend? q = some l) (h : p < q) : p <+: q ∨ m.span.stop ≤ l.span.start := by
  induction p generalizing n q with
  | nil => exact Or.inl List.nil_prefix
  | cons i p ih =>
      cases q with
      | nil => exact absurd h (List.not_lt_nil _)
      | cons j q =>
          obtain ⟨c, hc, hm⟩ := descend?_cons.1 hm
          obtain ⟨d, hd, hl⟩ := descend?_cons.1 hl
          have hchild : ∀ e ∈ n.children, ∀ m, e.Contains m → m.Nested :=
            fun e he m hm => hnested m (.child he hm)
          have hcmem := List.mem_of_getElem? hc
          have hdmem := List.mem_of_getElem? hd
          rcases List.cons_lt_cons_iff.1 h with hij | ⟨rfl, hpq⟩
          · -- the paths part here, and the children that they go to are in order
            have horder := (hnested n (.refl n)).ordered
            obtain ⟨hi, rfl⟩ := List.getElem?_eq_some_iff.1 hc
            obtain ⟨hj, rfl⟩ := List.getElem?_eq_some_iff.1 hd
            have hcd := List.pairwise_iff_getElem.1 horder i j hi hj hij
            have hm' := (contains_of_descend? hm).inside (hchild _ hcmem)
            have hl' := (contains_of_descend? hl).inside (hchild _ hdmem)
            exact Or.inr (by omega)
          · obtain rfl := Option.some.inj (hc.symm.trans hd)
            rcases ih (hchild c hcmem) hm hl hpq with hbegin | hbefore
            · exact Or.inl ((List.prefix_cons_inj i).2 hbegin)
            · exact Or.inr hbefore

theorem lt_of_beginning (h : p <+: q) (hne : p ≠ q) : p < q := by
  obtain ⟨rest, rfl⟩ := h
  induction p with
  | nil =>
      cases rest with
      | nil => exact absurd rfl hne
      | cons i rest => exact List.Lex.nil
  | cons i p ih => exact List.Lex.cons (ih fun heq => hne (congrArg (i :: ·) heq))

/-- A node that covers some bytes and stops before another one starts comes earlier. -/
theorem lt_of_before (hnested : ∀ m, n.Contains m → m.Nested) (hm : n.descend? p = some m)
    (hl : n.descend? q = some l) (hmne : m.span.start < m.span.stop)
    (hlne : l.span.start < l.span.stop) (h : m.span.stop ≤ l.span.start) : p < q := by
  rcases lt_trichotomy p q with hlt | rfl | hgt
  · exact hlt
  · obtain rfl := Option.some.inj (hm.symm.trans hl)
    omega
  · -- otherwise the other node would contain this one, or stop before it starts
    rcases prefix_or_before hnested hl hm hgt with hbegin | hbefore
    · have hinside := (contains_of_beginning hl hm hbegin).inside
        fun k hk => hnested k ((contains_of_descend? hl).trans hk)
      omega
    · omega

/-- The sites of a tree are those of its occurrences, in preorder. -/
theorem sites_eq_filterMap (n : Node) :
    n.sites = n.occurrences.filterMap fun o => o.node.site? := by
  induction n using induction_on_children with
  | step n ih =>
      have hbranch : (branch occurrences 0 n.children).filterMap (fun o => o.node.site?) =
          n.children.flatMap sites := by
        have hmap : ((branch occurrences 0 n.children).map Occurrence.node).filterMap site? =
            (branch occurrences 0 n.children).filterMap fun o => o.node.site? :=
          List.filterMap_map
        rw [← hmap, map_node_branch, List.filterMap_flatMap]
        refine List.flatMap_congr fun c hc => ?_
        rw [List.filterMap_map, ih c hc]
        rfl
      rw [sites_eq, occurrences_eq_cons, List.filterMap_cons, hbranch]
      cases n.site? <;> rfl

end Occurrences

/-! ## What a site says -/

section Sites

variable {n m c : Node} {site : Site} {P : Node → Prop} {ns : List Node} {role : Role}

theorem find?_eq_some_iff_firstOf {p : Node → Bool} (hp : ∀ d, p d = true ↔ P d) :
    ns.find? p = some c ↔ FirstOf P ns c := by
  simp only [List.find?_eq_some_iff_append, FirstOf, ← hp, Bool.not_eq_true, Bool.not_eq_true']

theorem child?_eq_some_iff : n.child? role = some c ↔ n.Plays role c :=
  find?_eq_some_iff_firstOf fun d => by rw [beq_iff_eq]

theorem firstNamed?_eq_some_iff :
    n.firstNamed? = some c ↔
      FirstOf (fun d => d.named = true ∧ d.extra = false) n.children c :=
  find?_eq_some_iff_firstOf fun d => by rw [Bool.and_eq_true, Bool.not_eq_true']

theorem wraps_iff :
    n.Wraps c ↔ n.kind = "parenthesized_expression" ∧ n.firstNamed? = some c := by
  rw [Wraps, firstNamed?_eq_some_iff]

theorem Wraps.mem_children (h : n.Wraps c) : c ∈ n.children :=
  List.mem_of_find?_eq_some (wraps_iff.1 h).2

theorem Wraps.ungrouped_eq (h : n.Wraps c) : n.ungrouped = c.ungrouped := by
  obtain ⟨hkind, hfirst⟩ := wraps_iff.1 h
  rw [Node.ungrouped_eq, if_pos (beq_iff_eq.2 hkind), hfirst]
  rfl

theorem ungrouped_of_not_wraps (h : ∀ c, ¬n.Wraps c) : n.ungrouped = n := by
  rw [ungrouped_eq]
  split
  · rename_i hkind
    cases hfirst : n.firstNamed? with
    | none => rfl
    | some c => exact absurd (wraps_iff.2 ⟨beq_iff_eq.1 hkind, hfirst⟩) (h c)
  · rfl

/-- Stepping into parentheses ends, and in one node only. -/
theorem strips_iff : n.Strips m ↔ m = n.ungrouped := by
  constructor
  · intro h
    induction h with
    | stop hnone => exact (ungrouped_of_not_wraps hnone).symm
    | step hc _ ih => rw [hc.ungrouped_eq, ih]
  · rintro rfl
    induction n using induction_on_children with
    | step n ih =>
        by_cases hsome : ∃ c, n.Wraps c
        · obtain ⟨c, hc⟩ := hsome
          rw [hc.ungrouped_eq]
          exact .step hc (ih c hc.mem_children)
        · have hnone := not_exists.1 hsome
          rw [ungrouped_of_not_wraps hnone]
          exact .stop hnone

theorem invocation?_eq_some_iff {kind : CallKind} :
    (∃ role, n.invocation? = some (kind, role) ∧ n.child? role = some c) ↔ n.Invokes kind c := by
  rw [invocation?]
  split_ifs with hcall hnew
  · have hkind : n.kind = "call_expression" := beq_iff_eq.1 hcall
    cases kind <;> simp [Invokes, hkind, child?_eq_some_iff]
  · have hkind : n.kind = "new_expression" := beq_iff_eq.1 hnew
    cases kind <;> simp [Invokes, hkind, child?_eq_some_iff]
  · rw [beq_iff_eq] at hcall hnew
    cases kind <;> simp [Invokes, hcall, hnew]

theorem argumentsStart?_eq_some_iff {o : Nat} :
    n.argumentsStart? = some o ↔
      ∃ c, n.Plays .arguments c ∧ c.kind = "arguments" ∧ o = c.span.start := by
  simp only [argumentsStart?, Option.map_eq_some_iff, Option.filter_eq_some_iff,
    child?_eq_some_iff, beq_iff_eq, and_assoc, @eq_comm _ _ o]

/-- The site of a node describes it. -/
theorem describes_of_site? (h : n.site? = some site) : n.Describes site := by
  obtain ⟨kind, role, callee, hinvocation, hcallee, rfl⟩ := site?_eq_some_iff.1 h
  refine ⟨rfl, ⟨callee, callee.ungrouped, ?_, fun m => strips_iff, rfl⟩, fun o => ?_⟩
  · exact invocation?_eq_some_iff.1 ⟨role, hinvocation, hcallee⟩
  · exact argumentsStart?_eq_some_iff

/-- The nodes that have a site are the invocations with a callee. -/
theorem isSome_site?_iff : n.site?.isSome = true ↔ ∃ kind callee, n.Invokes kind callee := by
  rw [Option.isSome_iff_exists]
  constructor
  · rintro ⟨site, hsite⟩
    obtain ⟨callee, inner, hinvokes, -⟩ := (describes_of_site? hsite).callee
    exact ⟨site.kind, callee, hinvokes⟩
  · rintro ⟨kind, callee, hinvokes⟩
    obtain ⟨role, hinvocation, hcallee⟩ := invocation?_eq_some_iff.2 hinvokes
    exact ⟨_, site?_eq_some_iff.2 ⟨kind, role, callee, hinvocation, hcallee, rfl⟩⟩

theorem Invokes.isInvocation {kind : CallKind} (h : n.Invokes kind c) : n.IsInvocation := by
  cases kind with
  | call => exact Or.inl h.1
  | construct => exact Or.inr h.1

theorem isInvocation_of_site? (h : n.site? = some site) : n.IsInvocation := by
  obtain ⟨callee, inner, hinvokes, -⟩ := (describes_of_site? h).callee
  exact hinvokes.isInvocation

end Sites

end Node

/-! ## The order -/

section Order

open Node

variable {n : Node} {tree : Tree} {a b : Occurrence} {P : Occurrence → Prop}
  {os : List Occurrence}

/-- In a list of occurrences in preorder the earlier path has the smaller index. -/
theorem Node.Lists.index_lt (h : n.Lists P os) {i j : Nat} (ha : os[i]? = some a)
    (hb : os[j]? = some b) (hlt : a.path < b.path) : i < j := by
  obtain ⟨hi, rfl⟩ := List.getElem?_eq_some_iff.1 ha
  obtain ⟨hj, rfl⟩ := List.getElem?_eq_some_iff.1 hb
  rcases Nat.lt_trichotomy i j with hij | rfl | hji
  · exact hij
  · exact absurd hlt (List.lt_irrefl _)
  · have hgt := List.pairwise_iff_getElem.1 h.preorder j i hj hi hji
    exact absurd (List.lt_trans hlt hgt) (List.lt_irrefl _)

/-- If invocations cover some bytes, the sites in preorder are in the order of visits. -/
theorem Tree.sites_pairwise (hnested : ∀ n, tree.root.Contains n → n.Nested)
    (hne : ∀ n, tree.root.Contains n → n.IsInvocation → n.span.start < n.span.stop) :
    tree.root.sites.Pairwise fun a b => Site.visitedBefore a b = true := by
  rw [sites_eq_filterMap, List.pairwise_filterMap]
  refine tree.root.occurrences_preorder.imp_of_mem fun {a b} ha hb hab s hs t ht => ?_
  rw [mem_occurrences_iff] at ha hb
  have hspan := (describes_of_site? hs).span_eq
  have hspan' := (describes_of_site? ht).span_eq
  have hlt := hne a.node (contains_of_descend? ha) (isInvocation_of_site? hs)
  simp only [Site.visitedBefore, hspan, hspan', Bool.or_eq_true, Bool.and_eq_true,
    decide_eq_true_eq, beq_iff_eq]
  rcases prefix_or_before hnested ha hb hab with hbegin | hbefore
  · -- the later one lies inside of the earlier one
    have hinside := (contains_of_beginning ha hb hbegin).inside
      fun m hm => hnested m ((contains_of_descend? ha).trans hm)
    omega
  · omega

/-- The sites are visited in preorder. -/
theorem Tree.sites_eq (hnested : ∀ n, tree.root.Contains n → n.Nested)
    (hne : ∀ n, tree.root.Contains n → n.IsInvocation → n.span.start < n.span.stop) :
    tree.sites = tree.root.sites :=
  List.mergeSort_of_pairwise (Tree.sites_pairwise hnested hne)

/-- The sites of the occurrences in a list describe the nodes there. -/
theorem Node.forall₂_describes (os : List Occurrence) :
    List.Forall₂ (fun o site => Node.Describes o.node site)
      (os.filter fun o => o.node.site?.isSome) (os.filterMap fun o => o.node.site?) := by
  induction os with
  | nil => exact .nil
  | cons o os ih =>
      rw [List.filter_cons, List.filterMap_cons]
      cases hsite : o.node.site? with
      | none => exact ih
      | some site => exact .cons (describes_of_site? hsite) ih

/-- Sites are complete, unique and in preorder. Sorting the sites that are found at the calls and
constructor invocations of a tree, taken in preorder, leaves one for each of them that has a callee,
still in preorder. So an invocation comes before those inside of it and before those that start
where it has stopped, and its site tells its callee and its argument list. -/
theorem Tree.sites_preorder (tree : Tree) (hnested : ∀ n, tree.root.Contains n → n.Nested)
    (hne : ∀ n, tree.root.Contains n → n.IsInvocation → n.span.start < n.span.stop) :
    ∃ captured visited : List Occurrence,
      tree.root.Lists (fun o => o.node.IsInvocation) captured ∧
      tree.sites = (captured.filterMap fun o => o.node.site?).mergeSort Site.visitedBefore ∧
      tree.root.Lists (fun o => ∃ kind callee, o.node.Invokes kind callee) visited ∧
      List.Forall₂ (fun o site => o.node.Describes site) visited tree.sites ∧
      ∀ (i j : Nat) (a b : Occurrence), visited[i]? = some a → visited[j]? = some b →
        (a.path <+: b.path ∧ a.path ≠ b.path ∨ a.node.span.stop ≤ b.node.span.start) →
          i < j := by
  have hcaptured : tree.root.Lists (fun o => o.node.IsInvocation)
      (tree.root.occurrences.filter fun o => decide o.node.IsInvocation) :=
    tree.root.lists_filter_occurrences fun o => decide_eq_true_iff
  have hvisited : tree.root.Lists (fun o => ∃ kind callee, o.node.Invokes kind callee)
      (tree.root.occurrences.filter fun o => o.node.site?.isSome) :=
    tree.root.lists_filter_occurrences fun o => isSome_site?_iff
  -- only invocations have a site, so that none is lost by looking at these alone
  have hsites : (tree.root.occurrences.filter fun o => decide o.node.IsInvocation).filterMap
      (fun o => o.node.site?) = tree.root.sites := by
    rw [sites_eq_filterMap, List.filterMap_filter]
    refine List.filterMap_congr fun o _ => ?_
    cases hsite : o.node.site? with
    | none => split <;> rfl
    | some site => rw [if_pos (decide_eq_true (isInvocation_of_site? hsite))]
  refine ⟨_, _, hcaptured, by rw [hsites, Tree.sites], hvisited, ?_, ?_⟩
  · rw [Tree.sites_eq hnested hne, sites_eq_filterMap]
    exact Node.forall₂_describes _
  · intro i j a b ha hb hab
    obtain ⟨hpath, kind, callee, hinvokes⟩ := (hvisited.mem_iff a).1 (List.mem_of_getElem? ha)
    obtain ⟨hpath', kind', callee', hinvokes'⟩ :=
      (hvisited.mem_iff b).1 (List.mem_of_getElem? hb)
    refine hvisited.index_lt ha hb ?_
    rcases hab with ⟨hbegin, hne'⟩ | hbefore
    · exact lt_of_beginning hbegin hne'
    · exact lt_of_before hnested hpath hpath'
        (hne _ (contains_of_descend? hpath) hinvokes.isInvocation)
        (hne _ (contains_of_descend? hpath') hinvokes'.isInvocation) hbefore

end Order

/-! ## A call of what a call gives -/

/-- The tree of `f()()`. -/
def chainedTree : Tree where
  root := ⟨"program", ⟨0, 5⟩, true, false, none,
    [⟨"expression_statement", ⟨0, 5⟩, true, false, none,
      [⟨"call_expression", ⟨0, 5⟩, true, false, none,
        [⟨"call_expression", ⟨0, 3⟩, true, false, some .function,
          [⟨"identifier", ⟨0, 1⟩, true, false, some .function, []⟩,
          ⟨"arguments", ⟨1, 3⟩, true, false, some .arguments, [.mark "(" 1, .mark ")" 2]⟩]⟩,
        ⟨"arguments", ⟨3, 5⟩, true, false, some .arguments, [.mark "(" 3, .mark ")" 4]⟩]⟩]⟩]⟩
  hasError := false

/-- Both calls of `f()()` start together, and the outer one is visited first. -/
theorem Tree.sites_preorder_chainedTree :
    (∀ n, chainedTree.root.Contains n → n.Nested) ∧
      (∀ n, chainedTree.root.Contains n → n.IsInvocation → n.span.start < n.span.stop) ∧
      chainedTree.sites = [⟨.call, ⟨0, 5⟩, ⟨0, 3⟩, some 3⟩, ⟨.call, ⟨0, 3⟩, ⟨0, 1⟩, some 1⟩] ∧
      ∃ visited : List Occurrence,
        chainedTree.root.Lists (fun o => ∃ kind callee, o.node.Invokes kind callee) visited ∧
        visited.map (fun o => o.node.span) = [⟨0, 5⟩, ⟨0, 3⟩] := by
  have hnested : ∀ n, chainedTree.root.Contains n → n.Nested := fun n hn =>
    (by decide : ∀ m ∈ chainedTree.root.descendants, m.Nested) n
      (Node.contains_iff_mem_descendants.1 hn)
  have hne : ∀ n, chainedTree.root.Contains n → n.IsInvocation → n.span.start < n.span.stop :=
    fun n hn => (by decide : ∀ m ∈ chainedTree.root.descendants,
      m.IsInvocation → m.span.start < m.span.stop) n (Node.contains_iff_mem_descendants.1 hn)
  have hsites : chainedTree.sites =
      [⟨.call, ⟨0, 5⟩, ⟨0, 3⟩, some 3⟩, ⟨.call, ⟨0, 3⟩, ⟨0, 1⟩, some 1⟩] := by
    rw [Tree.sites_eq hnested hne]
    decide
  obtain ⟨captured, visited, -, -, hvisited, hdescribes, -⟩ :=
    Tree.sites_preorder chainedTree hnested hne
  refine ⟨hnested, hne, hsites, visited, hvisited, ?_⟩
  have hspans : List.Forall₂ (· = ·) (visited.map fun o => o.node.span)
      (chainedTree.sites.map Site.span) :=
    List.forall₂_map_left_iff.2 (List.forall₂_map_right_iff.2
      (hdescribes.imp fun _ _ h => h.span_eq.symm))
  rw [List.forall₂_eq_eq_eq, hsites] at hspans
  exact hspans

end ParenGap
