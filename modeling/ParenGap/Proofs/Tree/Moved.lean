import Mathlib.Data.List.Forall2
import Mathlib.Tactic
import ParenGap.Proofs.Gap.Alignment
import ParenGap.Proofs.Token.Spaces
import ParenGap.Proofs.Tree.Sites
import ParenGap.Proofs.Tree.Tight

/-!
# Trees moved by a patch

A patch that respaces a text moves the nodes of its tree (`Tree.moved`). In a tight tree every node
below the root starts and stops inside of tokens (`Tight.exists_leaf_start`), so that the starts and
stops of its nodes are aligned with where they are moved to. The moved tree is well formed for the
result and tight again, its tokens are the moved tokens, and its sites are the moved sites, each
aligned with the site that it comes from.
-/

set_option autoImplicit false

namespace ParenGap

namespace Node

mutual

/-- A node where it stands after a patch, its descendants included. -/
def moved (p : Patch) : Node → Node
  | ⟨kind, span, named, extra, role, children⟩ =>
      ⟨kind, p.movedSpan span, named, extra, role, movedOf p children⟩

/-- The nodes of a list where they stand after a patch. -/
def movedOf (p : Patch) : List Node → List Node
  | [] => []
  | n :: ns => n.moved p :: movedOf p ns

end

end Node

/-- A site where it stands after a patch. -/
def Site.moved (p : Patch) (site : Site) : Site :=
  ⟨site.kind, p.movedSpan site.span, p.movedSpan site.callee,
    site.argumentsStart.map p.movedStart⟩

/-- A tree where it stands after a patch. -/
def Tree.moved (p : Patch) (tree : Tree) : Tree := ⟨tree.root.moved p, tree.hasError⟩

namespace Node

/-! ## Moving keeps the shape -/

section Shape

variable {p : Patch} {n m : Node}

theorem moved_eq (p : Patch) (n : Node) :
    n.moved p = ⟨n.kind, p.movedSpan n.span, n.named, n.extra, n.role,
      n.children.map (moved p)⟩ := by
  have hlist : ∀ ns : List Node, movedOf p ns = ns.map (moved p) := by
    intro ns
    induction ns with
    | nil => rfl
    | cons n ns ih => rw [movedOf, ih, List.map_cons]
  obtain ⟨kind, span, named, extra, role, children⟩ := n
  rw [moved, hlist]

@[simp] theorem kind_moved : (n.moved p).kind = n.kind := by rw [moved_eq]

@[simp] theorem span_moved : (n.moved p).span = p.movedSpan n.span := by rw [moved_eq]

@[simp] theorem named_moved : (n.moved p).named = n.named := by rw [moved_eq]

@[simp] theorem extra_moved : (n.moved p).extra = n.extra := by rw [moved_eq]

@[simp] theorem role_moved : (n.moved p).role = n.role := by rw [moved_eq]

@[simp] theorem children_moved : (n.moved p).children = n.children.map (moved p) := by
  rw [moved_eq]

@[simp] theorem isLeaf_moved : (n.moved p).isLeaf = n.isLeaf := by
  simp [isLeaf]

theorem tokenKind_moved (text : List Char) : (n.moved p).tokenKind text = n.tokenKind text := by
  simp [tokenKind, kindEndsWith]

theorem child?_moved (role : Role) : (n.moved p).child? role = (n.child? role).map (moved p) := by
  rw [child?, child?, children_moved, List.find?_map]
  congr 2
  funext c
  simp

theorem firstNamed?_moved : (n.moved p).firstNamed? = n.firstNamed?.map (moved p) := by
  rw [firstNamed?, firstNamed?, children_moved, List.find?_map]
  congr 2
  funext c
  simp

theorem ungrouped_moved (n : Node) : (n.moved p).ungrouped = n.ungrouped.moved p := by
  induction n using induction_on_children with
  | step n ih =>
      rw [ungrouped_eq, ungrouped_eq n, kind_moved, firstNamed?_moved]
      split
      · cases hfirst : n.firstNamed? with
        | none => rfl
        | some c =>
            have hc : c ∈ n.children := List.mem_of_find?_eq_some hfirst
            simp [ih c hc]
      · rfl

theorem argumentsStart?_moved :
    (n.moved p).argumentsStart? = n.argumentsStart?.map p.movedStart := by
  rw [argumentsStart?, argumentsStart?, child?_moved]
  cases n.child? .arguments with
  | none => rfl
  | some c =>
      rw [Option.map_some]
      by_cases hc : c.kind == "arguments"
      · rw [Option.filter_some_pos (by simpa using hc), Option.filter_some_pos (by simpa using hc)]
        simp [Patch.movedSpan]
      · rw [Option.filter_some_neg (by simpa using hc), Option.filter_some_neg (by simpa using hc)]
        rfl

theorem invocation?_moved : (n.moved p).invocation? = n.invocation? := by
  rw [invocation?, invocation?, kind_moved]

theorem site?_moved : (n.moved p).site? = n.site?.map (Site.moved p) := by
  rw [site?, site?, invocation?_moved, argumentsStart?_moved]
  cases n.invocation? with
  | none => rfl
  | some found =>
      simp only [Option.bind_some, child?_moved]
      cases n.child? found.2 with
      | none => rfl
      | some callee => simp [Site.moved, ungrouped_moved]

theorem sites_moved (n : Node) : (n.moved p).sites = n.sites.map (Site.moved p) := by
  induction n using induction_on_children with
  | step n ih =>
      rw [sites_eq, sites_eq n, site?_moved, children_moved, List.flatMap_map, List.map_append,
        List.map_flatMap]
      congr 1
      · cases n.site? <;> rfl
      · exact List.flatMap_congr ih

/-- The descendants of a moved node are the moved descendants. -/
theorem Contains.exists_of_moved {m' : Node} (h : (n.moved p).Contains m') :
    ∃ m, n.Contains m ∧ m' = m.moved p := by
  generalize hn : n.moved p = n' at h
  induction h generalizing n with
  | refl => exact ⟨n, .refl n, hn.symm⟩
  | child hc _ ih =>
      rw [← hn, children_moved, List.mem_map] at hc
      obtain ⟨d, hd, rfl⟩ := hc
      obtain ⟨m, hm, rfl⟩ := ih rfl
      exact ⟨m, .child hd hm, rfl⟩

theorem Below.exists_of_moved {m' : Node} (h : (n.moved p).Below m') :
    ∃ m, n.Below m ∧ m' = m.moved p := by
  obtain ⟨c', hc', h⟩ := h
  rw [children_moved, List.mem_map] at hc'
  obtain ⟨c, hc, rfl⟩ := hc'
  obtain ⟨m, hm, rfl⟩ := h.exists_of_moved
  exact ⟨m, ⟨c, hc, hm⟩, rfl⟩

/-- The leaves move if those that cover no byte stay so. -/
theorem leaves_moved (h : ∀ l, n.Shows l → l.isLeaf = true →
    (p.movedSpan l.span).isEmpty = l.span.isEmpty) :
    (n.moved p).leaves = n.leaves.map (moved p) := by
  induction n using induction_on_children with
  | step n ih =>
      cases hleaf : n.isLeaf with
      | true =>
          rw [leaves_of_isLeaf hleaf, leaves_of_isLeaf (by rw [isLeaf_moved, hleaf]), span_moved,
            h n (.refl n) hleaf]
          split <;> rfl
      | false =>
          rw [leaves_of_not_isLeaf hleaf, leaves_of_not_isLeaf (by rw [isLeaf_moved, hleaf]),
            children_moved, List.flatMap_map, List.map_flatMap]
          apply List.flatMap_congr
          intro c hc
          exact ih c hc fun l hl => h l (.child hleaf hc hl)

end Shape

end Node

/-! ## The moved tree of a respaced text -/

/-- A tight, well formed tree, its tokens, and a patch that respaces its text, with the result. -/
structure Tree.Respaced (tree : Tree) (code : List Char) (tokens : List Token) (p : Patch)
    (out : List Char) : Prop where
  wellFormed : tree.WellFormed code
  tight : tree.Tight
  tokens_eq : tree.tokens? code = some tokens
  respacing : p.Respacing (TokenStream.ofList tokens) code
  applied : p.applied? code = some out

namespace Tree.Respaced

open Node

variable {tree : Tree} {code out : List Char} {tokens : List Token} {p : Patch} {m l : Node}
  {site : Site}

theorem liesIn (h : tree.Respaced code tokens p out) : (TokenStream.ofList tokens).LiesIn code :=
  h.wellFormed.liesIn h.tokens_eq

/-- The start of a node below the root is aligned with where it is moved to. -/
theorem alignedStart (h : tree.Respaced code tokens p out) (hm : tree.root.Below m) :
    (TokenStream.ofList tokens).AlignedStart ((TokenStream.ofList tokens).moved p) m.span.start
      (p.movedStart m.span.start) := by
  obtain ⟨l, hl, hstart, hstop⟩ := h.tight.exists_leaf_start h.wellFormed.nested hm
  obtain ⟨i, t, ht, hspan⟩ := Tree.exists_get?_of_mem_leaves h.tokens_eq hl
  rw [← hspan] at hstart hstop
  exact h.respacing.alignedStart_moved h.liesIn h.applied ht hstart hstop

/-- The stop of a node below the root is aligned with where it is moved to. -/
theorem alignedStop (h : tree.Respaced code tokens p out) (hm : tree.root.Below m) :
    (TokenStream.ofList tokens).AlignedStop ((TokenStream.ofList tokens).moved p) m.span.stop
      (p.movedStop m.span.stop) := by
  obtain ⟨l, hl, hstart, hstop⟩ := h.tight.exists_leaf_stop h.wellFormed.nested hm
  obtain ⟨i, t, ht, hspan⟩ := Tree.exists_get?_of_mem_leaves h.tokens_eq hl
  rw [← hspan] at hstart hstop
  exact h.respacing.alignedStop_moved h.liesIn h.applied ht hstart hstop

/-- Tokens lie inside of the root. -/
theorem token_inside (h : tree.Respaced code tokens p out) {i : Nat} {t : Token}
    (ht : (TokenStream.ofList tokens).get? i = some t) :
    tree.root.span.start ≤ t.span.start ∧ t.span.stop ≤ tree.root.span.stop := by
  obtain ⟨l, hl, hlt⟩ := Tree.exists_leaf_of_mem_tokens h.tokens_eq (TokenStream.mem_of_get? ht)
  rw [(Node.token?_eq_some_iff.1 hlt).2.1]
  exact (mem_leaves_iff.1 hl).1.contains.inside h.wellFormed.nested

/-- No edit runs across the start or the stop of a node. -/
theorem clear (h : tree.Respaced code tokens p out) (hm : tree.root.Contains m) :
    p.Clear m.span.start ∧ p.Clear m.span.stop := by
  rcases hm.eq_or_below with rfl | hbelow
  · -- edits lie between tokens, and tokens lie inside of the root
    constructor
    · intro e he
      obtain ⟨b, t, u, text, ht, -, hspan, -⟩ := h.respacing.gaps e he
      have hin := (h.token_inside ht).1
      have hlt := h.liesIn.start_lt_stop ht
      rw [hspan]
      right
      exact hin.trans hlt.le
    · intro e he
      obtain ⟨b, t, u, text, -, hu, hspan, -⟩ := h.respacing.gaps e he
      have hin := (h.token_inside hu).2
      have hlt := h.liesIn.start_lt_stop hu
      rw [hspan]
      left
      exact hlt.le.trans hin
  · -- the node starts and stops inside of tokens, and no edit touches these
    obtain ⟨l, hl, hstart, hstop⟩ := h.tight.exists_leaf_start h.wellFormed.nested hbelow
    obtain ⟨i, t, ht, hspan⟩ := Tree.exists_get?_of_mem_leaves h.tokens_eq hl
    obtain ⟨l', hl', hstart', hstop'⟩ := h.tight.exists_leaf_stop h.wellFormed.nested hbelow
    obtain ⟨i', t', ht', hspan'⟩ := Tree.exists_get?_of_mem_leaves h.tokens_eq hl'
    rw [← hspan] at hstart hstop
    rw [← hspan'] at hstart' hstop'
    exact ⟨h.respacing.clear h.liesIn.toInOrder ht hstart hstop.le,
      h.respacing.clear h.liesIn.toInOrder ht' hstart'.le hstop'⟩

/-- The moved tree is well formed for the result. -/
theorem wellFormed_moved (h : tree.Respaced code tokens p out) :
    (tree.moved p).WellFormed out := by
  -- starts and stops of nodes are clear of the patch, so that moves keep their order
  have hedits := h.respacing.inOrder
  constructor
  · intro n' hn'
    obtain ⟨n, hn, rfl⟩ := Contains.exists_of_moved hn'
    have hnested := h.wellFormed.nested n hn
    have hchild : ∀ c ∈ n.children, tree.root.Contains c :=
      fun c hc => hn.trans (.of_mem_children hc)
    constructor
    · intro c' hc'
      rw [children_moved, List.mem_map] at hc'
      obtain ⟨c, hc, rfl⟩ := hc'
      obtain ⟨hstart, hstop⟩ := hnested.inside c hc
      rw [span_moved, span_moved]
      exact ⟨Patch.movedStart_le_movedStart hedits h.applied (h.wellFormed.places n hn).1
          (h.wellFormed.places c (hchild c hc)).1 (h.clear hn).1 (h.clear (hchild c hc)).1 hstart,
        Patch.movedStop_le_movedStop hedits h.applied (h.wellFormed.places c (hchild c hc)).2
          (h.wellFormed.places n hn).2 (h.clear (hchild c hc)).2 (h.clear hn).2 hstop⟩
    · rw [children_moved, List.pairwise_map]
      refine hnested.ordered.imp_of_mem fun {c d} hc hd hcd => ?_
      rw [span_moved, span_moved]
      exact Patch.movedStop_le_movedStart hedits h.applied
        (h.wellFormed.places c (hchild c hc)).2 (h.wellFormed.places d (hchild d hd)).1
        (h.clear (hchild c hc)).2 (h.clear (hchild d hd)).1 hcd
  · intro n' hn'
    obtain ⟨n, hn, rfl⟩ := Contains.exists_of_moved hn'
    obtain ⟨hstart, hstop⟩ := h.wellFormed.places n hn
    obtain ⟨hclear, hclear'⟩ := h.clear hn
    rw [span_moved]
    exact ⟨Patch.isPlace_movedStart hedits h.applied hstart hclear,
      Patch.isPlace_movedStop hedits h.applied hstop hclear'⟩

/-- The moved tree is tight. -/
theorem tight_moved (h : tree.Respaced code tokens p out) : (tree.moved p).Tight := by
  intro n' hn'
  obtain ⟨n, hn, rfl⟩ := Below.exists_of_moved hn'
  have htight := h.tight n hn
  constructor
  · rw [span_moved]
    exact ((h.alignedStart hn).lt_stop_iff (h.respacing.alike_moved h.liesIn h.applied)
      h.liesIn.toInOrder (h.respacing.liesIn_moved h.liesIn h.applied).toInOrder
      (h.alignedStop hn)).1 htight.nonempty
  · intro c' hc'
    rw [children_moved, List.head?_map, Option.mem_map] at hc'
    obtain ⟨c, hc, rfl⟩ := hc'
    rw [span_moved, span_moved]
    exact congrArg p.movedStart (htight.first c hc)
  · intro c' hc'
    rw [children_moved, List.getLast?_map, Option.mem_map] at hc'
    obtain ⟨c, hc, rfl⟩ := hc'
    rw [span_moved, span_moved]
    exact congrArg p.movedStop (htight.last c hc)

/-- The leaves of the moved tree are the moved leaves. -/
theorem leaves_moved (h : tree.Respaced code tokens p out) :
    (tree.moved p).root.leaves = tree.root.leaves.map (Node.moved p) := by
  apply Node.leaves_moved
  intro l hshows hleaf
  cases hempty : l.span.isEmpty with
  | false =>
      obtain ⟨i, t, ht, hspan⟩ :=
        Tree.exists_get?_of_mem_leaves h.tokens_eq (mem_leaves_iff.2 ⟨hshows, hleaf, hempty⟩)
      have hlt := h.respacing.movedStart_lt_movedStop h.liesIn h.applied ht
      rw [hspan] at hlt
      exact decide_eq_false (Nat.not_le.2 hlt)
  | true =>
      -- only the root can be empty; it has no token then, so that there is nothing to edit
      rcases hshows.contains.eq_or_below with hroot | hbelow
      · have hleaves : tree.root.leaves = [] := by
          rw [hroot, leaves_of_isLeaf hleaf, if_pos hempty]
        have hnone : tokens = [] := by
          have hmap := Tree.map_span_tokens h.tokens_eq
          simpa [hleaves] using hmap
        have hedits : p.edits = [] := by
          apply List.eq_nil_iff_forall_not_mem.2
          intro e he
          obtain ⟨b, t, u, text, ht, -⟩ := h.respacing.gaps e he
          simp [hnone, TokenStream.ofList, TokenStream.get?] at ht
        simpa [Span.isEmpty, Patch.movedSpan, Patch.movedStart, Patch.movedStop, Patch.stoppingBy,
          Patch.startingBefore, hedits] using hempty
      · have hlt := (h.tight l hbelow).nonempty
        simp only [Span.isEmpty, decide_eq_true_eq] at hempty
        omega

/-- The tokens of the moved tree are the moved tokens. -/
theorem tokens?_moved (h : tree.Respaced code tokens p out) :
    (tree.moved p).tokens? out = some (tokens.map (Token.moved p)) := by
  rw [Tree.tokens?_eq_some_iff, h.leaves_moved, List.forall₂_map_left_iff,
    List.forall₂_map_right_iff]
  have hall : List.Forall₂ (fun l t => l ∈ tree.root.leaves ∧ l.token? code = some t)
      tree.root.leaves tokens :=
    (List.forall₂_and_left _ _).2 ⟨fun l hl => hl, Tree.tokens?_eq_some_iff.1 h.tokens_eq⟩
  refine hall.imp ?_
  rintro l t ⟨hl, hlt⟩
  obtain ⟨htext, hspan, hkind⟩ := Node.token?_eq_some_iff.1 hlt
  -- the token of the stream in the place of the leaf has the text of the leaf
  obtain ⟨i, u, hu, huspan⟩ := Tree.exists_get?_of_mem_leaves h.tokens_eq hl
  have hutext := h.liesIn.texts u (TokenStream.mem_of_get? hu)
  have hslice := (h.respacing.slice?_token h.liesIn h.applied hu).1
  rw [huspan, htext, Option.some.injEq] at hutext
  rw [huspan, ← hutext] at hslice
  rw [Node.token?_eq_some_iff, span_moved, tokenKind_moved]
  exact ⟨hslice, congrArg p.movedSpan hspan, hkind⟩

/-- A site of the tree is aligned with the site moved. -/
theorem aligned_site (h : tree.Respaced code tokens p out) (hsite : site ∈ tree.sites) :
    site.Aligned (site.moved p) (TokenStream.ofList tokens)
      ((TokenStream.ofList tokens).moved p) := by
  rw [Tree.sites, List.mem_mergeSort, mem_sites_iff] at hsite
  obtain ⟨n, hn, hsite⟩ := hsite
  obtain ⟨c, hc, hcallee⟩ := exists_callee_below hsite
  have hbelow : tree.root.Below c := by
    obtain ⟨d, hd, hdc⟩ := hc
    exact (Below.of_contains_mem_children hn hd).trans_contains hdc
  refine ⟨rfl, ?_, ?_, ?_⟩
  · simp only [Site.moved, Patch.movedSpan, hcallee]
    exact h.alignedStart hbelow
  · simp only [Site.moved, Patch.movedSpan, hcallee]
    exact h.alignedStop hbelow
  · cases ho : site.argumentsStart with
    | none => simp [Site.moved, ho]
    | some o =>
        obtain ⟨a, ha, rfl⟩ := exists_arguments_below hsite ho
        have hbelow' : tree.root.Below a := by
          obtain ⟨d, hd, hda⟩ := ha
          exact (Below.of_contains_mem_children hn hd).trans_contains hda
        simp only [Site.moved, ho, Option.map_some]
        exact .some (h.alignedStart hbelow')

/-- The sites of the moved tree are the moved sites, up to the order in which they are visited. -/
theorem perm_sites_moved (tree : Tree) (p : Patch) :
    (tree.moved p).sites.Perm (tree.sites.map (Site.moved p)) := by
  rw [Tree.sites, Tree.sites, Tree.moved, Node.sites_moved]
  exact (List.mergeSort_perm _ _).trans ((List.mergeSort_perm _ _).map _).symm

end Tree.Respaced

end ParenGap
