import Mathlib.Tactic
import ParenGap.Proofs.Gap.Verdict
import ParenGap.Proofs.Token.Pairing
import ParenGap.Proofs.Tree.Nesting
import ParenGap.Proofs.Tree.Sites
import ParenGap.Proofs.Tree.Tight

/-!
# Grouping parentheses

The parentheses that group a callee are taken off in the tree, node by node (`Node.ungrouped`), and
put back in the token stream, token by token (`TokenStream.outermost`). `Tree.Grouped` is the shape
of a tree in which the two agree: groupings are a pair of parentheses around one node, and all other
nodes have balanced tokens. There the boundary of a site is the last token of its callee with all
parentheses around it, provided that no closing parenthesis follows
(`Tree.Grouped.boundary_callee`).
-/

set_option autoImplicit false

namespace ParenGap

/-! ## One pair of parentheses in the stream -/

namespace TokenStream

open Pairing (Balanced)

variable {tokens before between comments after : List Token} {opening t closing : Token}
  {start : Nat}

theorem get?_of_split (after : List Token) (h : tokens = before ++ t :: after) :
    (ofList tokens).get? before.length = some t := by
  simp [h, get?, ofList]

/-- The first code after a place in the stream is what comes after the comments there. -/
theorem codeFrom?_of_split (h : tokens = before ++ (comments ++ t :: after))
    (hcomments : ∀ u ∈ comments, u.isComment = true) (ht : t.isComment = false) :
    (ofList tokens).codeFrom? before.length = some (before ++ comments).length := by
  refine codeFrom?_eq_some_iff.2 ⟨by simp, ⟨t, get?_of_split after (by simp [h]), ht⟩, ?_⟩
  intro j u hj hj' hu
  apply hcomments
  rw [List.length_append] at hj'
  have hget : comments[j - before.length]? = some u := by
    rw [← hu, get?, ofList, List.getElem?_toArray, h, List.getElem?_append_right hj,
      List.getElem?_append_left (by omega)]
  exact List.mem_of_getElem? hget

/-- A closing parenthesis belongs to the opening one if the tokens in between are balanced. -/
theorem partner?_of_split (h : tokens = before ++ opening :: (between ++ closing :: after))
    (ho : opening.opens = true) (hc : closing.closes = true) (hbetween : Balanced between) :
    (ofList tokens).partner? (before ++ opening :: between).length = some before.length := by
  have hlength : (before ++ opening :: between).length = before.length + 1 + between.length := by
    rw [List.length_append, List.length_cons]
    omega
  have hslot : (Pairing.partners tokens)[before.length + 1 + between.length]? =
      some (some before.length) := by
    rw [h]
    exact (Pairing.partners_of_balanced ho hc hbetween).2
  rw [partner?, ofList, hlength, hslot]
  rfl

/-- A closing parenthesis after a token groups a callee that starts after its partner. -/
theorem InOrder.grouping?_of_split (h : (ofList tokens).InOrder)
    (hsplit : tokens = before ++ opening :: (between ++ t :: (comments ++ closing :: after)))
    (ho : opening.opens = true) (hc : closing.closes = true)
    (hbalanced : Balanced (between ++ t :: comments))
    (hcomments : ∀ u ∈ comments, u.isComment = true) (hstart : opening.span.start < start) :
    (ofList tokens).grouping? start (before ++ opening :: between).length =
      some (before ++ opening :: (between ++ t :: comments)).length := by
  have ht : (ofList tokens).get? (before ++ opening :: between).length = some t :=
    get?_of_split (comments ++ closing :: after) (by simp [hsplit])
  have hclosing : (ofList tokens).get? (before ++ opening :: (between ++ t :: comments)).length =
      some closing := get?_of_split after (by simp [hsplit])
  have hopening : (ofList tokens).get? before.length = some opening := get?_of_split _ hsplit
  have hpartner :
      (ofList tokens).partner? (before ++ opening :: (between ++ t :: comments)).length =
        some before.length := by
    have hsplit' : tokens =
        before ++ opening :: ((between ++ t :: comments) ++ closing :: after) := by simp [hsplit]
    exact partner?_of_split hsplit' ho hc hbalanced
  -- only comments stand between the token and the closing parenthesis
  have hnext : (ofList tokens).codeAfter? t.span.stop =
      some (before ++ opening :: (between ++ t :: comments)).length := by
    have hcode : closing.isComment = false := by
      simp only [Token.closes, Token.isPunctuator, Bool.and_eq_true, beq_iff_eq] at hc
      simp [Token.isComment, hc.1]
    have hsplit' : tokens =
        (before ++ opening :: (between ++ [t])) ++ (comments ++ closing :: after) := by
      simp [hsplit]
    rw [h.codeAfter?_stop ht]
    simpa [Nat.add_assoc] using codeFrom?_of_split hsplit' hcomments hcode
  have hlt : (before ++ opening :: between).length <
      (before ++ opening :: (between ++ t :: comments)).length := by
    simp only [List.length_append, List.length_cons]
    omega
  exact grouping?_eq_some_iff.2
    ⟨t, closing, before.length, opening, ht, hnext, hclosing, hpartner, hopening, hc, hstart, hlt⟩

end TokenStream

/-! ## Groupings in the tree -/

namespace Node

/-- The node makes the punctuator with the given characters. -/
def IsPunctuator (code : List Char) (n : Node) (text : List Char) : Prop :=
  n.isLeaf = true ∧ ∃ t ∈ n.token? code, t.isPunctuator text = true

instance (code : List Char) (n : Node) (text : List Char) : Decidable (n.IsPunctuator code text) :=
  inferInstanceAs (Decidable (_ ∧ _))

/-- The node makes a parenthesis. -/
def IsParen (code : List Char) (n : Node) : Prop :=
  n.IsPunctuator code ['('] ∨ n.IsPunctuator code [')']

instance (code : List Char) (n : Node) : Decidable (n.IsParen code) :=
  inferInstanceAs (Decidable (_ ∨ _))

/-- The node makes a comment. -/
def IsComment (n : Node) : Prop := n.isLeaf = true ∧ n.kindEndsWith "comment" = true

/-- Whether the node is named in the grammar and not an extra. -/
def isProper (n : Node) : Bool := n.named && !n.extra

/-- The children of the node are an opening parenthesis, one proper node, a closing parenthesis at
the end, and comments. -/
def Groups (code : List Char) (n inner : Node) : Prop :=
  ∃ before opening between after closing,
    n.children = before ++ opening :: (between ++ inner :: (after ++ [closing])) ∧
      opening.IsPunctuator code ['('] ∧ closing.IsPunctuator code [')'] ∧ inner.isProper = true ∧
      ∀ c ∈ before ++ between ++ after, c.IsComment ∧ c.isProper = false

section Leaf

variable {code : List Char} {n : Node} {ns : List Node} {t : Token} {ts : List Token}

/-- Named nodes make no punctuators. -/
theorem tokenKind_ne_punctuator (h : n.named = true) (text : List Char) :
    n.tokenKind text ≠ .punctuator := by
  simp only [tokenKind, h, Bool.not_true, Bool.false_eq_true, if_false]
  split_ifs <;> simp

/-- A punctuator is not a proper node. -/
theorem IsPunctuator.isProper_eq_false {text : List Char} (h : n.IsPunctuator code text) :
    n.isProper = false := by
  obtain ⟨-, t, ht, hp⟩ := h
  rw [Token.isPunctuator, Bool.and_eq_true, beq_iff_eq] at hp
  rw [isProper, Bool.and_eq_false_imp]
  intro hnamed
  exact absurd ((token?_eq_some_iff.1 ht).2.2.symm.trans hp.1) (tokenKind_ne_punctuator hnamed _)

theorem not_isParen_of_isProper (h : n.isProper = true) : ¬ n.IsParen code := by
  rintro (hparen | hparen)
  · simp [hparen.isProper_eq_false] at h
  · simp [hparen.isProper_eq_false] at h

/-- A punctuator has a single token. -/
theorem IsPunctuator.exists_tokens? {text : List Char} (h : n.IsPunctuator code text)
    (hn : n.Tight) (ht : n.tokens? code = some ts) :
    ∃ t, ts = [t] ∧ t.isPunctuator text = true ∧ t.span = n.span := by
  obtain ⟨hleaf, t, htn, hp⟩ := h
  obtain ⟨u, hu, rfl⟩ := (tokens?_eq_some_iff_of_isLeaf hleaf hn.nonempty).1 ht
  obtain rfl : u = t := Option.some.inj (hu.symm.trans htn)
  exact ⟨u, rfl, hp, (token?_eq_some_iff.1 hu).2.1⟩

/-- The tokens of comments are comments. -/
theorem isComment_of_tokensOf? (hns : ∀ n ∈ ns, n.IsComment) (h : tokensOf? code ns = some ts)
    (ht : t ∈ ts) : t.isComment = true := by
  obtain ⟨n, hn, l, hl, hlt⟩ := exists_leaf_of_tokensOf? h ht
  obtain ⟨hleaf, hkind⟩ := hns n hn
  rw [leaves_of_isLeaf hleaf] at hl
  split at hl
  · cases hl
  · obtain rfl := List.mem_singleton.1 hl
    rw [Token.isComment, (token?_eq_some_iff.1 hlt).2.2, tokenKind, if_pos hkind]
    rfl

/-- Comments hold no parentheses. -/
theorem balanced_of_comments (h : ∀ t ∈ ts, t.isComment = true) : Pairing.Balanced ts := by
  refine Pairing.balanced_of_no_paren fun t ht => ?_
  have hkind : t.kind = .comment := by simpa [Token.isComment] using h t ht
  simp [Token.opens, Token.closes, Token.isPunctuator, hkind]

end Leaf

section Grouping

variable {code : List Char} {n inner : Node} {ts : List Token}

/-- A grouping is stripped to what its proper child is stripped to. -/
theorem Groups.ungrouped_eq (h : n.Groups code inner)
    (hkind : n.kind = "parenthesized_expression") : n.ungrouped = inner.ungrouped := by
  obtain ⟨before, opening, between, after, closing, hchildren, hopens, -, hproper, hcomments⟩ := h
  have hfirst : n.firstNamed? = some inner := by
    rw [firstNamed?, List.find?_eq_some_iff_append]
    refine ⟨hproper, before ++ opening :: between, after ++ [closing], by simp [hchildren], ?_⟩
    intro c hc
    rw [List.mem_append, List.mem_cons] at hc
    have hc' : c.isProper = false := by
      rcases hc with hc | rfl | hc
      · exact (hcomments c (by simp [hc])).2
      · exact hopens.isProper_eq_false
      · exact (hcomments c (by simp [hc])).2
    rw [Bool.not_eq_true']
    exact hc'
  rw [Node.ungrouped_eq, hkind, hfirst]
  rfl

theorem Groups.isProper (h : n.Groups code inner) : inner.isProper = true := by
  obtain ⟨before, opening, between, after, closing, -, -, -, hproper, -⟩ := h
  exact hproper

theorem Groups.mem_children (h : n.Groups code inner) : inner ∈ n.children := by
  obtain ⟨before, opening, between, after, closing, hchildren, -⟩ := h
  simp [hchildren]

theorem Groups.isLeaf_eq_false (h : n.Groups code inner)
    (hkind : n.kind = "parenthesized_expression") : n.isLeaf = false := by
  obtain ⟨before, opening, between, after, closing, hchildren, -⟩ := h
  simp [isLeaf, hchildren, hkind, atomicKinds]

/-- The tokens of a grouping are an opening parenthesis, the tokens of the proper child, a closing
parenthesis, and comments. -/
theorem Groups.exists_tokens? (h : n.Groups code inner)
    (hkind : n.kind = "parenthesized_expression") (hnested : n.Nested)
    (htight : ∀ c ∈ n.children, c.Tight) (ht : n.tokens? code = some ts) :
    ∃ before opening between us after closing,
      ts = before ++ opening :: (between ++ (us ++ (after ++ [closing]))) ∧
        inner.tokens? code = some us ∧ opening.opens = true ∧ closing.closes = true ∧
        opening.span.start < inner.span.start ∧
        (∀ t ∈ between, t.isComment = true) ∧ ∀ t ∈ after, t.isComment = true := by
  have hleaf := h.isLeaf_eq_false hkind
  obtain ⟨before, opening, between, after, closing, hchildren, ho, hc, -, hcomments⟩ := h
  have hopening : opening ∈ n.children := by simp [hchildren]
  have hclosing : closing ∈ n.children := by simp [hchildren]
  have horder : opening.span.stop ≤ inner.span.start := by
    have hordered := hnested.ordered
    rw [hchildren, List.pairwise_append, List.pairwise_cons] at hordered
    exact hordered.2.1.1 inner (by simp)
  -- the tokens of the children, child by child
  rw [tokens?_of_not_isLeaf hleaf, hchildren] at ht
  obtain ⟨bs, ts₁, -, h₁, rfl⟩ := tokensOf?_append_eq_some_iff.1 ht
  obtain ⟨os, ts₂, hos, h₂, rfl⟩ := tokensOf?_cons_eq_some_iff.1 h₁
  obtain ⟨ws, ts₃, hws, h₃, rfl⟩ := tokensOf?_append_eq_some_iff.1 h₂
  obtain ⟨us, ts₄, hus, h₄, rfl⟩ := tokensOf?_cons_eq_some_iff.1 h₃
  obtain ⟨as, ts₅, has, h₅, rfl⟩ := tokensOf?_append_eq_some_iff.1 h₄
  obtain ⟨cs, ts₆, hcs, h₆, rfl⟩ := tokensOf?_cons_eq_some_iff.1 h₅
  obtain rfl : ts₆ = [] := by simpa [tokensOf?] using h₆.symm
  obtain ⟨o, rfl, hopens, hspan⟩ := ho.exists_tokens? (htight opening hopening) hos
  obtain ⟨c, rfl, hcloses, -⟩ := hc.exists_tokens? (htight closing hclosing) hcs
  have hlt := (htight opening hopening).nonempty
  refine ⟨bs, o, ws, us, as, c, by simp, hus, hopens, hcloses, by rw [hspan]; omega, ?_, ?_⟩
  · intro t ht
    exact isComment_of_tokensOf? (fun m hm => (hcomments m (by simp [hm])).1) hws ht
  · intro t ht
    exact isComment_of_tokensOf? (fun m hm => (hcomments m (by simp [hm])).1) has ht

end Grouping

end Node

/-- The shape of a tree in which parentheses only group or belong to a balanced stretch. Every
parenthesized expression is a grouping, no invocation hides in a node that makes a single token, and
all nodes but the parentheses themselves have balanced tokens. -/
structure Tree.Grouped (tree : Tree) (code : List Char) : Prop where
  groups : ∀ n, tree.root.Contains n → n.kind = "parenthesized_expression" →
    ∃ inner, n.Groups code inner
  exposed : ∀ a n, tree.root.Contains a → a.kind ∈ Node.atomicKinds → a.Below n →
    n.invocation? = none
  balanced : ∀ n ts, tree.root.Shows n → ¬ n.IsParen code → n.tokens? code = some ts →
    Pairing.Balanced ts

namespace Tree.Grouped

open Node TokenStream

variable {tree : Tree} {code : List Char} {tokens before us after : List Token} {t : Token}
  {n inner callee : Node} {site : Site} {kind : CallKind} {role : Role}

/-- The invocations of the tree are shown. -/
theorem shows_of_invocation? (h : tree.Grouped code) (hn : tree.root.Contains n)
    (hinvocation : n.invocation? = some (kind, role)) : tree.root.Shows n :=
  Node.shows_of_invocation? h.exposed hn hinvocation

/-- One turn of the loop over the grouping parentheses leads from the last token of the proper child
of a grouping to the last token of the grouping. -/
theorem exists_outermost_eq_of_groups (h : tree.Grouped code) (hwf : tree.WellFormed code)
    (htight : tree.Tight) (ht : tree.tokens? code = some tokens) (hshows : tree.root.Shows n)
    (hbelow : tree.root.Below n) (hkind : n.kind = "parenthesized_expression")
    (hgroups : n.Groups code inner) (hn : n.tokens? code = some (us ++ [t]))
    (hsplit : tokens = before ++ (us ++ t :: after)) :
    ∃ before' us' t' after', inner.tokens? code = some (us' ++ [t']) ∧
      tokens = before' ++ (us' ++ t' :: after') ∧
      ∀ start, inner.span.start ≤ start → (ofList tokens).outermost start (before' ++ us').length =
        (ofList tokens).outermost start (before ++ us).length := by
  have htight' : ∀ m, n.Contains m → m.Tight := fun m hm => htight m (hbelow.trans_contains hm)
  have hinner : n.Contains inner := .of_mem_children hgroups.mem_children
  have hshows' : tree.root.Shows inner :=
    hshows.trans (.child (hgroups.isLeaf_eq_false hkind) hgroups.mem_children (.refl inner))
  obtain ⟨bs, opening, ws, is, as, closing, heq, his, ho, hc, hstart, hws, has⟩ :=
    hgroups.exists_tokens? hkind (hwf.nested n hbelow.contains)
      (fun c hc => htight' c (.of_mem_children hc)) hn
  have hbalanced := h.balanced inner is hshows' (not_isParen_of_isProper hgroups.isProper) his
  obtain ⟨is, t', l, rfl, -, -, -⟩ :=
    exists_tokens?_eq_concat (fun m hm => htight' m (hinner.trans hm)) his
  -- the closing parenthesis is the last token of the grouping
  have heq' : us ++ [t] = (bs ++ opening :: (ws ++ is ++ t' :: as)) ++ [closing] := by simp [heq]
  obtain ⟨rfl, hlast⟩ := List.append_inj' heq' rfl
  obtain rfl : t = closing := by simpa using hlast
  refine ⟨before ++ (bs ++ opening :: ws), is, t', as ++ t :: after, his, by simp [hsplit], ?_⟩
  intro start hle
  have hsplit' : tokens =
      (before ++ bs) ++ opening :: ((ws ++ is) ++ t' :: (as ++ t :: after)) := by simp [hsplit]
  have hwithin : Pairing.Balanced ((ws ++ is) ++ t' :: as) := by
    simpa using (balanced_of_comments hws).append (hbalanced.append (balanced_of_comments has))
  have hnext := (hwf.liesIn ht).grouping?_of_split hsplit' ho hc hwithin has (hstart.trans_le hle)
  simpa using outermost_eq_next hnext

/-- From the last token of what is left of a callee without the parentheses around it, the loop over
the grouping parentheses comes by the last token of the callee. -/
theorem exists_outermost_ungrouped (h : tree.Grouped code) (hwf : tree.WellFormed code)
    (htight : tree.Tight) (ht : tree.tokens? code = some tokens) (hshows : tree.root.Shows n)
    (hbelow : tree.root.Below n) (hn : n.tokens? code = some (us ++ [t]))
    (hsplit : tokens = before ++ (us ++ t :: after)) :
    ∃ i u, (ofList tokens).get? i = some u ∧ u.span.stop = n.ungrouped.span.stop ∧
      (ofList tokens).outermost n.ungrouped.span.start i =
        (ofList tokens).outermost n.ungrouped.span.start (before ++ us).length := by
  induction n using induction_on_children generalizing before us after t with
  | step n ih =>
      by_cases hkind : n.kind = "parenthesized_expression"
      · -- the proper child comes first, then one more turn
        obtain ⟨inner, hgroups⟩ := h.groups n hbelow.contains hkind
        have hinner : inner ∈ n.children := hgroups.mem_children
        have hbelow' : tree.root.Below inner := .of_contains_mem_children hbelow.contains hinner
        obtain ⟨before', us', t', after', hn', hsplit', hturn⟩ :=
          h.exists_outermost_eq_of_groups hwf htight ht hshows hbelow hkind hgroups hn hsplit
        obtain ⟨i, u, hu, hstop, hrun⟩ := ih inner hinner
          (hshows.trans (.child (hgroups.isLeaf_eq_false hkind) hinner (.refl inner))) hbelow'
          hn' hsplit'
        have hinside := (contains_ungrouped inner).inside fun m hm =>
          hwf.nested m (hbelow'.contains.trans hm)
        rw [hgroups.ungrouped_eq hkind]
        exact ⟨i, u, hu, hstop, hrun.trans (hturn _ hinside.1)⟩
      · -- nothing is taken off, and the last token of the node is where the loop starts
        have hungrouped : n.ungrouped = n := by
          rw [ungrouped_eq, if_neg (by simpa using hkind)]
        obtain ⟨us', t', l, heq, -, -, hstop⟩ :=
          exists_tokens?_eq_concat (fun m hm => htight m (hbelow.trans_contains hm)) hn
        obtain ⟨rfl, htt'⟩ := List.append_inj' heq rfl
        obtain rfl : t = t' := by simpa using htt'
        refine ⟨(before ++ us).length, t, get?_of_split after (by simp [hsplit]), ?_, rfl⟩
        rw [hungrouped]
        exact hstop

/-- The boundary of a site is the last token of its whole callee, with all parentheses that group
it. -/
theorem boundary_callee (h : tree.Grouped code) (hwf : tree.WellFormed code)
    (htight : tree.Tight) (ht : tree.tokens? code = some tokens) (hn : tree.root.Contains n)
    (hsite : n.site? = some site) (hinvocation : n.invocation? = some (kind, role))
    (hcallee : n.child? role = some callee)
    (hnext : ∀ i t, (ofList tokens).codeAfter? callee.span.stop = some i →
      (ofList tokens).get? i = some t → t.closes = false) :
    ∃ l t b, callee.leaves.getLast? = some l ∧ l.token? code = some t ∧
      (ofList tokens).get? b = some t ∧ (ofList tokens).boundary site.callee = .ok b := by
  have hmem : callee ∈ n.children := mem_children_of_child? hcallee
  have hbelow : tree.root.Below callee := .of_contains_mem_children hn hmem
  have hshows : tree.root.Shows callee := (h.shows_of_invocation? hn hinvocation).trans
    (.child (isLeaf_eq_false_of_invocation? hinvocation hcallee) hmem (.refl callee))
  obtain ⟨before, ts, after, hts, hsplit⟩ := exists_tokens?_of_shows ht hshows
  obtain ⟨us, t, l, rfl, hl, hlt, hstop⟩ := exists_tokens?_eq_concat
    (fun m hm => htight m (hbelow.trans_contains hm)) hts
  have hsplit' : tokens = before ++ (us ++ t :: after) := by simp [hsplit]
  have hlast : (ofList tokens).get? (before ++ us).length = some t :=
    get?_of_split after (by simp [hsplit])
  -- what follows the callee does not close, so the loop ends with the callee
  have hend :
      (ofList tokens).grouping? callee.ungrouped.span.start (before ++ us).length = none := by
    rw [← hstop] at hnext
    exact grouping?_eq_none_of_next hlast hnext
  obtain ⟨i, u, hu, hstop', hrun⟩ :=
    h.exists_outermost_ungrouped hwf htight ht hshows hbelow hts hsplit'
  obtain ⟨kind', role', callee', hinvocation', hcallee', rfl⟩ := site?_eq_some_iff.1 hsite
  obtain ⟨rfl, rfl⟩ : kind = kind' ∧ role = role' := by
    simpa [hinvocation] using hinvocation'
  obtain rfl : callee = callee' := Option.some.inj (hcallee.symm.trans hcallee')
  refine ⟨l, t, (before ++ us).length, hl, hlt, hlast, ?_⟩
  rw [(hwf.liesIn ht).boundary_eq_ok hu hstop', hrun, outermost_eq_self hend]

end Tree.Grouped

/-! ## A grouped call as a callee -/

/-- The text `((f()/**/))(0)`. -/
def nestedCode : List Char :=
  ['(', '(', 'f', '(', ')', '/', '*', '*', '/', ')', ')', '(', '0', ')']

/-- The callee of the outer call of `((f()/**/))(0)` without its outer parentheses. -/
def nestedInner : Node :=
  ⟨"parenthesized_expression", ⟨1, 10⟩, true, false, none,
    [.mark "(" 1,
      ⟨"call_expression", ⟨2, 5⟩, true, false, none,
        [⟨"identifier", ⟨2, 3⟩, true, false, some .function, []⟩,
          ⟨"arguments", ⟨3, 5⟩, true, false, some .arguments, [.mark "(" 3, .mark ")" 4]⟩]⟩,
      ⟨"comment", ⟨5, 9⟩, true, true, none, []⟩, .mark ")" 9]⟩

/-- The callee of the outer call of `((f()/**/))(0)`. -/
def nestedOuter : Node :=
  ⟨"parenthesized_expression", ⟨0, 11⟩, true, false, some .function,
    [.mark "(" 0, nestedInner, .mark ")" 10]⟩

/-- The outer call of `((f()/**/))(0)`. -/
def nestedCall : Node :=
  ⟨"call_expression", ⟨0, 14⟩, true, false, none,
    [nestedOuter, ⟨"arguments", ⟨11, 14⟩, true, false, some .arguments,
      [.mark "(" 11, ⟨"number", ⟨12, 13⟩, true, false, none, []⟩, .mark ")" 13]⟩]⟩

/-- The tree of `((f()/**/))(0)`. -/
def nestedTree : Tree where
  root := ⟨"program", ⟨0, 14⟩, true, false, none,
    [⟨"expression_statement", ⟨0, 14⟩, true, false, none, [nestedCall]⟩]⟩
  hasError := false

/-- The tokens of `((f()/**/))(0)`. -/
def nestedTokens : List Token :=
  [⟨.punctuator, ⟨0, 1⟩, ['(']⟩, ⟨.punctuator, ⟨1, 2⟩, ['(']⟩, ⟨.identifier, ⟨2, 3⟩, ['f']⟩,
    ⟨.punctuator, ⟨3, 4⟩, ['(']⟩, ⟨.punctuator, ⟨4, 5⟩, [')']⟩,
    ⟨.comment, ⟨5, 9⟩, ['/', '*', '*', '/']⟩, ⟨.punctuator, ⟨9, 10⟩, [')']⟩,
    ⟨.punctuator, ⟨10, 11⟩, [')']⟩, ⟨.punctuator, ⟨11, 12⟩, ['(']⟩, ⟨.literal, ⟨12, 13⟩, ['0']⟩,
    ⟨.punctuator, ⟨13, 14⟩, [')']⟩]

theorem groups_nestedInner : ∃ n, nestedInner.Groups nestedCode n :=
  ⟨_, [], .mark "(" 1, [], [⟨"comment", ⟨5, 9⟩, true, true, none, []⟩], .mark ")" 9, rfl,
    by decide, by decide, rfl, by simp [Node.IsComment]; decide⟩

theorem groups_nestedOuter : ∃ n, nestedOuter.Groups nestedCode n :=
  ⟨nestedInner, [], .mark "(" 0, [], [], .mark ")" 10, rfl, by decide, by decide, rfl, by simp⟩

theorem nestedTree_grouped : nestedTree.Grouped nestedCode where
  groups n hn hkind := by
    have hmem : n ∈ nestedTree.root.descendants.filter
        fun n => n.kind == "parenthesized_expression" :=
      List.mem_filter.2 ⟨Node.contains_iff_mem_descendants.1 hn, beq_iff_eq.2 hkind⟩
    have hlist : (nestedTree.root.descendants.filter
        fun n => n.kind == "parenthesized_expression") = [nestedOuter, nestedInner] := rfl
    rw [hlist, List.mem_cons, List.mem_singleton] at hmem
    rcases hmem with rfl | rfl
    · exact groups_nestedOuter
    · exact groups_nestedInner
  exposed a n ha hatomic hbelow := by
    have hleaves : ∀ a ∈ nestedTree.root.descendants, a.kind ∈ Node.atomicKinds →
        a.children.isEmpty = true := by decide
    have hnil := hleaves a (Node.contains_iff_mem_descendants.1 ha) hatomic
    exact absurd (List.isEmpty_iff.1 hnil) hbelow.children_ne_nil
  balanced n ts hn hparen hts := by
    have hall : ∀ n ∈ nestedTree.root.descendants, ¬ n.IsParen nestedCode →
        ∀ ts ∈ n.tokens? nestedCode, Pairing.Balanced ts := by decide
    exact hall n (Node.contains_iff_mem_descendants.1 hn.contains) hparen ts hts

/-- The gap of the outer call of `((f()/**/))(0)` starts after its two grouping parentheses. -/
theorem Tree.Grouped.boundary_callee_nestedTree :
    nestedTree.Grouped nestedCode ∧ nestedTree.WellFormed nestedCode ∧ nestedTree.Tight ∧
      nestedTree.tokens? nestedCode = some nestedTokens ∧ nestedTree.root.Contains nestedCall ∧
      nestedCall.site? = some ⟨.call, ⟨0, 14⟩, ⟨2, 5⟩, some 11⟩ ∧
      (TokenStream.ofList nestedTokens).boundary ⟨2, 5⟩ = .ok 7 := by
  have hwf : nestedTree.WellFormed nestedCode := by decide
  have htight : nestedTree.Tight := by decide
  have ht : nestedTree.tokens? nestedCode = some nestedTokens := by rfl
  have hn : nestedTree.root.Contains nestedCall :=
    .child List.mem_cons_self (.of_mem_children List.mem_cons_self)
  have hsite : nestedCall.site? = some ⟨.call, ⟨0, 14⟩, ⟨2, 5⟩, some 11⟩ := by rfl
  have hin := hwf.liesIn ht
  -- the parenthesis of the argument list follows the callee
  have hcode : (TokenStream.ofList nestedTokens).codeAfter? 11 = some 8 :=
    hin.codeAfter?_stop_of_next (b := 7) rfl rfl rfl
  refine ⟨nestedTree_grouped, hwf, htight, ht, hn, hsite, ?_⟩
  obtain ⟨l, t, b, hl, hlt, hb, hboundary⟩ :=
    boundary_callee (n := nestedCall) nestedTree_grouped hwf htight ht hn hsite rfl rfl
      fun i t hi ht => by
        obtain rfl : 8 = i := Option.some.inj (hcode.symm.trans hi)
        obtain rfl := Option.some.inj ht
        rfl
  have hstop : (TokenStream.ofList nestedTokens).get? b = some ⟨.punctuator, ⟨10, 11⟩, [')']⟩ := by
    obtain rfl : Node.mark ")" 10 = l := Option.some.inj hl
    obtain rfl : _ = t := Option.some.inj hlt
    exact hb
  obtain rfl : b = 7 := hin.index_eq_of_stop_eq hstop (j := 7) rfl rfl
  exact hboundary

end ParenGap
