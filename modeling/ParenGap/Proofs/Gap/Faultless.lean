import Mathlib.Tactic
import ParenGap.Proofs.Gap.Clean
import ParenGap.Proofs.Gap.Grouping
import ParenGap.Proofs.Tree.Tight

/-!
# Trees without faults

A fault says that the tree and the tokens of a text disagree on a site. `Tree.LinesUp` is the shape
of a tree in which they cannot: invocations are exposed, an argument list starts with its
parenthesis and comes after the callee, and only white space stands between tokens. There a token
ends where a callee ends (`LinesUp.exists_token_at_callee`), and another one opens where the
arguments start (`LinesUp.exists_opensAt`). The loop over the grouping parentheses jumps over
comments only, so it never goes past the parenthesis that opens the arguments, whatever the
parentheses in between are (`InOrder.outermost_lt_of_opens`).

So no site of such a tree is faulty, and each site whose boundary and parenthesis are neighbours is
against exactly one of the two policies (`Tree.LinesUp.check?_faultless`).
-/

set_option autoImplicit false

namespace ParenGap

open TokenStream

/-- Whether the parenthesis of the site is the token right after the boundary of its callee. -/
def Site.meets (site : Site) (s : TokenStream) : Bool :=
  match s.openParen site, s.boundary site.callee with
  | .ok (some p), .ok b => p == b + 1
  | _, _ => false

/-- The shape of a tree whose call sites line up with its tokens. No invocation hides in a node of
an atomic kind, every argument list starts with an opening parenthesis, the argument list of an
invocation comes after the callee, and nothing but white space stands between two tokens. -/
structure Tree.LinesUp (tree : Tree) (code : List Char) : Prop where
  exposed : ∀ a n, tree.root.Contains a → a.kind ∈ Node.atomicKinds → a.Below n →
    n.invocation? = none
  opening : ∀ n, tree.root.Contains n → n.kind = "arguments" →
    ∃ c ∈ n.children.head?, c.IsPunctuator code ['(']
  follows : ∀ n kind role callee args, tree.root.Contains n →
    n.invocation? = some (kind, role) → n.child? role = some callee →
    n.child? .arguments = some args → args.kind = "arguments" → callee.span.stop ≤ args.span.start
  blank : ∀ tokens b t u text, tree.tokens? code = some tokens →
    (ofList tokens).get? b = some t → (ofList tokens).get? (b + 1) = some u →
    Text.slice? code t.span.stop u.span.start = some text → ∀ c ∈ text, Text.isBlank c = true

/-! ## The loop over the grouping parentheses -/

section Loop

variable {s : TokenStream} {b next p start : Nat} {u : Token}

/-- The next grouping parenthesis stands before any opening parenthesis that comes later: there are
only comments on the way to it. -/
theorem TokenStream.InOrder.grouping?_lt_of_opens (h : s.InOrder)
    (hnext : s.grouping? start b = some next) (hu : s.get? p = some u) (hopens : u.opens = true)
    (hbp : b < p) : next < p := by
  obtain ⟨t, closer, -, -, ht, hcode, hcloser, -, -, hcloses, -, -⟩ :=
    grouping?_eq_some_iff.1 hnext
  rw [h.codeAfter?_stop ht] at hcode
  obtain ⟨-, -, hcomments⟩ := codeFrom?_eq_some_iff.1 hcode
  have hpunctuator : u.kind = .punctuator := by
    simp only [Token.opens, Token.isPunctuator, Bool.and_eq_true, beq_iff_eq] at hopens
    exact hopens.1
  rcases Nat.lt_trichotomy next p with hlt | rfl | hgt
  · exact hlt
  · -- no token opens and closes
    obtain rfl : closer = u := Option.some.inj (hcloser.symm.trans hu)
    simp only [Token.opens, Token.closes, Token.isPunctuator, Bool.and_eq_true, beq_iff_eq]
      at hopens hcloses
    rw [hopens.2] at hcloses
    exact absurd hcloses.2 (by decide)
  · have hcomment := hcomments p u (by omega) hgt hu
    simp [Token.isComment, hpunctuator] at hcomment

/-- The loop does not go past an opening parenthesis. -/
theorem TokenStream.InOrder.outermost_lt_of_opens (h : s.InOrder) (hu : s.get? p = some u)
    (hopens : u.opens = true) (hbp : b < p) : s.outermost start b < p := by
  fun_induction outermost s start b with
  | case1 b _ => exact hbp
  | case2 b next hnext ih => exact ih (h.grouping?_lt_of_opens hnext hu hopens hbp)

end Loop

/-! ## Sites that line up -/

namespace Tree.LinesUp

open Node

variable {tree : Tree} {code : List Char} {tokens : List Token} {n callee args : Node}
  {site : Site} {kind : CallKind} {role : Role}

/-- Children of an invocation with a callee are shown. -/
theorem shows_child (h : tree.LinesUp code) (hn : tree.root.Contains n)
    (hinvocation : n.invocation? = some (kind, role)) (hcallee : n.child? role = some callee)
    (hargs : args ∈ n.children) : tree.root.Shows args :=
  (shows_of_invocation? h.exposed hn hinvocation).trans
    (.child (isLeaf_eq_false_of_invocation? hinvocation hcallee) hargs (.refl args))

/-- A token ends where the callee of a site ends, at the stop of the callee's node or before. -/
theorem exists_token_at_callee (h : tree.LinesUp code) (htight : tree.Tight)
    (hnested : ∀ n, tree.root.Contains n → n.Nested) (ht : tree.tokens? code = some tokens)
    (hn : tree.root.Contains n) (hinvocation : n.invocation? = some (kind, role))
    (hcallee : n.child? role = some callee) :
    ∃ i t, (ofList tokens).get? i = some t ∧ t.span.stop = callee.ungrouped.span.stop ∧
      t.span.stop ≤ callee.span.stop := by
  have hmem : callee ∈ n.children := mem_children_of_child? hcallee
  have hbelow : tree.root.Below callee := .of_contains_mem_children hn hmem
  have hshows : tree.root.Shows callee.ungrouped :=
    (h.shows_child hn hinvocation hcallee hmem).trans callee.shows_ungrouped
  obtain ⟨l, hl, hstop⟩ :=
    htight.exists_leaf_stop_eq (hbelow.trans_contains callee.contains_ungrouped) hshows
  obtain ⟨i, t, hi, hspan⟩ := Tree.exists_get?_of_mem_leaves ht hl
  have hinside := callee.contains_ungrouped.inside fun m hm =>
    hnested m (hbelow.contains.trans hm)
  have hstop' : t.span.stop = callee.ungrouped.span.stop := by
    rw [hspan]
    exact hstop
  exact ⟨i, t, hi, hstop', hstop'.trans_le hinside.2⟩

/-- A token opens where the argument list of an invocation starts. -/
theorem exists_opensAt (h : tree.LinesUp code) (htight : tree.Tight)
    (ht : tree.tokens? code = some tokens) (hn : tree.root.Contains n)
    (hinvocation : n.invocation? = some (kind, role)) (hcallee : n.child? role = some callee)
    (hargs : args ∈ n.children) (hkind : args.kind = "arguments") :
    ∃ p, (ofList tokens).OpensAt args.span.start p := by
  have hbelow : tree.root.Below args := .of_contains_mem_children hn hargs
  obtain ⟨c, hc, hleaf, t, hct, hpunctuator⟩ := h.opening args hbelow.contains hkind
  have hmem : c ∈ args.children := List.mem_of_head? hc
  -- an argument list shows its children
  have hnotLeaf : args.isLeaf = false :=
    isLeaf_eq_false_of_mem hmem (by simp [hkind, atomicKinds])
  have hshows : tree.root.Shows c :=
    (h.shows_child hn hinvocation hcallee hargs).trans (.child hnotLeaf hmem (.refl c))
  have hempty : c.span.isEmpty = false := by
    simpa [Span.isEmpty] using (htight c (.of_contains_mem_children hbelow.contains hmem)).nonempty
  obtain ⟨p, u, hp, hcu⟩ :=
    Tree.exists_token_of_mem_leaves ht (mem_leaves_iff.2 ⟨hshows, hleaf, hempty⟩)
  obtain rfl : t = u := Option.some.inj (hct.symm.trans hcu)
  refine ⟨p, t, hp, hpunctuator, ?_⟩
  rw [(token?_eq_some_iff.1 hcu).2.1]
  exact (htight args hbelow).first c hc

/-- Every site has a parenthesis and a boundary before it, or no argument list. -/
theorem exists_joint (h : tree.LinesUp code) (hwf : tree.WellFormed code) (htight : tree.Tight)
    (ht : tree.tokens? code = some tokens) (hsite : site ∈ tree.sites) :
    ∃ found, site.joint (ofList tokens) = .ok found := by
  have horder : (ofList tokens).InOrder := (hwf.liesIn ht).toInOrder
  rw [Tree.sites, List.mem_mergeSort, mem_sites_iff] at hsite
  obtain ⟨n, hn, hsite⟩ := hsite
  obtain ⟨kind, role, callee, hinvocation, hcallee, rfl⟩ := site?_eq_some_iff.1 hsite
  cases hjoint : Site.joint ⟨kind, n.span, callee.ungrouped.span, n.argumentsStart?⟩
      (ofList tokens) with
  | ok found => exact ⟨found, rfl⟩
  | error fault =>
      -- none of the three causes of a fault is there
      obtain ⟨o, ho, hcause⟩ := (Site.joint_eq_error_iff horder).1 ⟨fault, hjoint⟩
      simp only [argumentsStart?, Option.map_eq_some_iff, Option.filter_eq_some_iff,
        beq_iff_eq] at ho
      obtain ⟨args, ⟨hargs, hkind⟩, rfl⟩ := ho
      obtain ⟨i, t, hi, hstop, hle⟩ :=
        h.exists_token_at_callee htight hwf.nested ht hn hinvocation hcallee
      obtain ⟨p, hp⟩ := h.exists_opensAt htight ht hn hinvocation hcallee
        (mem_children_of_child? hargs) hkind
      have hfollows := h.follows n kind role callee args hn hinvocation hcallee hargs hkind
      rcases hcause with hnone | hnone | ⟨q, b, hq, hb, hqb⟩
      · exact absurd hp (hnone p)
      · exact absurd hstop (hnone i t hi)
      · -- the loop starts before the parenthesis, and so it stops there
        obtain rfl := horder.opensAt_unique hp hq
        obtain ⟨u, hu, hopens, hustart⟩ := hp
        have hip : i < p := by
          rw [← horder.start_lt_start_iff hi hu]
          have := horder.start_lt_stop hi
          omega
        rw [horder.boundary_eq_ok hi hstop, Except.ok.injEq] at hb
        have hlt : (ofList tokens).outermost callee.ungrouped.span.start i < p :=
          horder.outermost_lt_of_opens hu hopens hip
        omega

end Tree.LinesUp

/-! ## Faults and violations one by one -/

namespace Site

variable {s : TokenStream} {code : List Char} {site : Site} {policy : Policy} {b : Nat}

/-- The sites whose boundary and parenthesis are neighbours are those that have a joint. -/
theorem meets_iff : site.meets s = true ↔ ∃ b, site.joint s = .ok (some b) := by
  unfold meets joint
  cases s.openParen site with
  | error fault => simp
  | ok paren =>
      cases paren with
      | none => simp
      | some p =>
          cases s.boundary site.callee with
          | error fault => simp
          | ok b =>
              simp only [beq_iff_eq]
              split_ifs with hpb hmeet
              · constructor
                · intro hp
                  omega
                · rintro ⟨b', hb'⟩
                  cases hb'
              · exact ⟨fun _ => ⟨b, rfl⟩, fun _ => hmeet⟩
              · constructor
                · intro hp
                  exact absurd hp hmeet
                · rintro ⟨b', hb'⟩
                  cases hb'

/-- A site whose joint does not fail, and holds white space only, has no fault, and it is against
one of the two policies if its boundary and its parenthesis meet, and against none otherwise. -/
theorem faultless_of_joint (h : s.LiesIn code) (hj : ∃ found, site.joint s = .ok found)
    (hblank : ∀ b t u text, site.JointText s code b t u text → ∀ c ∈ text, Text.isBlank c = true) :
    (∀ policy, site.fault? s code policy = none) ∧
      (site.violation? s code .never).isSome.toNat +
          (site.violation? s code .always).isSome.toNat =
        (site.meets s).toNat := by
  obtain ⟨found, hj⟩ := hj
  cases found with
  | none =>
      have hcheck : ∀ policy, site.check? s code policy = some (.ok none) :=
        fun policy => check?_of_joint_none h hj
      refine ⟨fun policy => ?_, ?_⟩
      · rw [fault?, hcheck]
      · have hmeets : site.meets s = false := by
          rw [← Bool.not_eq_true, meets_iff, hj]
          rintro ⟨b, hb⟩
          cases hb
        rw [hmeets, violation?, violation?, hcheck, hcheck]
        rfl
  | some b =>
      obtain ⟨t, u, text, ht, hu, htext, -⟩ := check?_of_joint_some h hj .never
      have hjt : site.JointText s code b t u text := ⟨hj, ht, hu, htext⟩
      have hcheck : ∀ policy, site.check? s code policy =
          some (if Gap.mended policy text = text then .ok none
            else .ok (some (site.violationAt policy t.span ⟨t.span.stop, u.span.start⟩))) := by
        intro policy
        obtain ⟨t', u', text', ht', hu', htext', hc⟩ := check?_of_joint_some h hj policy
        obtain ⟨rfl, rfl, rfl⟩ := hjt.unique ⟨hj, ht', hu', htext'⟩
        rw [hc, judge_of_blank (hblank b t u text hjt)]
      refine ⟨fun policy => ?_, ?_⟩
      · rw [fault?, hcheck]
        split_ifs <;> rfl
      · rw [meets_iff.2 ⟨b, hj⟩, violation?, violation?, hcheck, hcheck]
        -- white space is against `never`, and its absence is against `always`
        cases text with
        | nil => rfl
        | cons c cs =>
            have hnever : Gap.mended .never (c :: cs) ≠ c :: cs := (List.cons_ne_nil c cs).symm
            have halways : Gap.mended .always (c :: cs) = c :: cs := rfl
            rw [if_neg hnever, if_pos halways]
            rfl

end Site

/-- If every element has one of two results, or none, just as a test says, then the results are as
many as the elements that pass the test. -/
theorem length_filterMap_add {α β : Type} {f g : α → Option β} {p : α → Bool} {xs : List α}
    (h : ∀ x ∈ xs, (f x).isSome.toNat + (g x).isSome.toNat = (p x).toNat) :
    (xs.filterMap f).length + (xs.filterMap g).length = xs.countP p := by
  induction xs with
  | nil => rfl
  | cons x xs ih =>
      have hx := h x List.mem_cons_self
      have hrest := ih fun y hy => h y (List.mem_cons_of_mem x hy)
      rw [List.filterMap_cons, List.filterMap_cons, List.countP_cons]
      cases hf : f x <;> cases hg : g x <;> cases hp : p x <;>
        simp only [hf, hg, hp, Option.isSome_none, Option.isSome_some, Bool.toNat_true,
          Bool.toNat_false, List.length_cons, if_true, Bool.false_eq_true, if_false] at hx ⊢ <;>
        omega

/-- In a tree that lines up with its tokens no check has a fault, and the two policies together
report each of the sites whose boundary and parenthesis are neighbours once. Nothing is asked of the
parenthesized expressions, or of the balance of the tokens. -/
theorem Tree.LinesUp.check?_faultless {tree : Tree} {code : List Char} (h : tree.LinesUp code)
    (hwf : tree.WellFormed code) (htight : tree.Tight) (file : String) :
    ∃ source never always, Source.ofTree? file code tree = some source ∧
      source.check? .never = some never ∧ source.check? .always = some always ∧
      never.faults = [] ∧ always.faults = [] ∧
      never.diagnostics.length + always.diagnostics.length =
        tree.sites.countP fun site => site.meets source.tokens := by
  obtain ⟨source, tokens, hsource, hconsistent, -, rfl, rfl, ht, hstream⟩ :=
    hwf.exists_ofTree? file
  obtain ⟨never, hnever, hreports⟩ := hconsistent.exists_check? .never
  obtain ⟨always, halways, hreports'⟩ := hconsistent.exists_check? .always
  have hsites : ∀ site ∈ source.tree.sites,
      (∀ policy, site.fault? source.tokens source.code policy = none) ∧
        (site.violation? source.tokens source.code .never).isSome.toNat +
            (site.violation? source.tokens source.code .always).isSome.toNat =
          (site.meets source.tokens).toNat := by
    intro site hsite
    rw [hstream]
    refine Site.faultless_of_joint (hwf.liesIn ht) (h.exists_joint hwf htight ht hsite) ?_
    rintro b t u text ⟨-, hb, hu, htext⟩
    exact h.blank tokens b t u text ht hb hu htext
  have hfaults : ∀ policy, source.faultsAt policy source.tree.sites = [] := by
    intro policy
    rw [Source.faultsAt, List.filterMap_eq_nil_iff]
    exact fun site hsite => (hsites site hsite).1 policy
  refine ⟨source, never, always, hsource, hnever, halways, ?_, ?_, ?_⟩
  · rw [hreports.faults_eq, hfaults]
  · rw [hreports'.faults_eq, hfaults]
  · rw [← hreports.diagnostics_of.length_eq, ← hreports'.diagnostics_of.length_eq]
    exact length_filterMap_add fun site hsite => (hsites site hsite).2

/-! ## A grouped callee -/

theorem groupedTree_tokens? :
    groupedTree.tokens? Site.groupedCode = some Site.groupedStream.tokens.toList := by decide

theorem groupedTree_linesUp : groupedTree.LinesUp Site.groupedCode where
  exposed a n ha hatomic hbelow := by
    have hleaves : ∀ a ∈ groupedTree.root.descendants, a.kind ∈ Node.atomicKinds →
        a.children.isEmpty = true := by decide
    have hnil := hleaves a (Node.contains_iff_mem_descendants.1 ha) hatomic
    exact absurd (List.isEmpty_iff.1 hnil) hbelow.children_ne_nil
  opening n hn hkind := by
    have hall : ∀ n ∈ groupedTree.root.descendants, n.kind = "arguments" →
        ∃ c ∈ n.children.head?, c.IsPunctuator Site.groupedCode ['('] := by decide
    exact hall n (Node.contains_iff_mem_descendants.1 hn) hkind
  follows n kind role callee args hn hinvocation hcallee hargs hkind := by
    have hall : ∀ n ∈ groupedTree.root.descendants, ∀ i ∈ n.invocation?, ∀ callee ∈ n.child? i.2,
        ∀ args ∈ n.child? .arguments, args.kind = "arguments" →
          callee.span.stop ≤ args.span.start := by decide
    exact hall n (Node.contains_iff_mem_descendants.1 hn) _ hinvocation _ hcallee _ hargs hkind
  blank tokens b t u text ht hb hu htext := by
    rw [groupedTree_tokens?, Option.some.injEq] at ht
    subst ht
    have hall : ∀ b < 6, ∀ t ∈ Site.groupedStream.get? b, ∀ u ∈ Site.groupedStream.get? (b + 1),
        ∀ text ∈ Text.slice? Site.groupedCode t.span.stop u.span.start,
          text.all Text.isBlank = true := by decide
    exact List.all_eq_true.1 (hall b (lt_size_of_get? hb) t hb u hu text htext)

/-- The call in `(f) (0)` is against `never` and not against `always`. -/
theorem Tree.LinesUp.check?_faultless_groupedTree :
    groupedTree.LinesUp Site.groupedCode ∧ groupedTree.WellFormed Site.groupedCode ∧
      groupedTree.Tight ∧
      ∃ source never always, Source.ofTree? "a.js" Site.groupedCode groupedTree = some source ∧
        source.check? .never = some never ∧ source.check? .always = some always ∧
        never.faults = [] ∧ always.faults = [] ∧
        never.diagnostics.length + always.diagnostics.length = 1 := by
  have hwf : groupedTree.WellFormed Site.groupedCode := by decide
  have htight : groupedTree.Tight := by decide
  obtain ⟨source, never, always, hsource, hnever, halways, hfaults, hfaults', hcount⟩ :=
    groupedTree_linesUp.check?_faultless hwf htight "a.js"
  refine ⟨groupedTree_linesUp, hwf, htight, source, never, always, hsource, hnever, halways,
    hfaults, hfaults', ?_⟩
  have hsites : groupedTree.sites = [Site.groupedSite] := by decide +kernel
  have hstream : source.tokens = Site.groupedStream := by
    rw [Source.ofTree?, TokenStream.ofTree?_eq, groupedTree_tokens?] at hsource
    rw [← Option.some.inj hsource]
    rfl
  have hjoint : Site.groupedSite.joint Site.groupedStream = .ok (some 2) :=
    (Site.joint_eq_some_iff Site.groupedStream_liesIn.toInOrder).2
      ⟨4, rfl, ⟨_, rfl, rfl, rfl⟩, Site.boundary_groupedSite⟩
  have hmeets : Site.groupedSite.meets Site.groupedStream = true := Site.meets_iff.2 ⟨2, hjoint⟩
  rw [hcount, hsites, hstream, List.countP_singleton, hmeets]
  rfl

end ParenGap
