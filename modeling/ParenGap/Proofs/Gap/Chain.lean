import Mathlib.Tactic
import ParenGap.Proofs.Gap.Grouping
import ParenGap.Proofs.Token.Matching
import ParenGap.Proofs.Token.Spaces

/-!
# The chain of grouping parentheses

The search for the boundary of a callee goes in turns. A turn starts from a token, looks up the
first code at or after its stop, and goes on from there if that is a closing parenthesis whose
partner starts before the callee (`Turn`). It goes by byte offsets, and nothing in it says that it
goes ahead: over tokens that cover nothing it may come back to where it was.

Over tokens in order a turn is a link between token indexes (`turn_iff`), links go ahead, and so the
turns come to an end (`not_exists_turns`). What they run through is the longest chain of links from
the last token of the callee (`GroupingChain`), and each of its parentheses has its partner before
the partner of the one it comes after: pairs do not cross, and between two neighbours of the chain
there are comments only (`outward_of_linked`).

The main statement is `boundary_chain`.
-/

set_option autoImplicit false

namespace ParenGap

namespace TokenStream

/-- A closing parenthesis at index `n` whose partner starts before a callee with the given start. -/
def GroupsAt (s : TokenStream) (start n : Nat) : Prop :=
  ∃ t o u, s.get? n = some t ∧ t.closes = true ∧ s.partner? n = some o ∧ s.get? o = some u ∧
    u.span.start < start

/-- One turn of the search leads from token `b` to token `n`. -/
def Turn (s : TokenStream) (start b n : Nat) : Prop :=
  ∃ t, s.get? b = some t ∧ s.codeAfter? t.span.stop = some n ∧ s.GroupsAt start n

/-- The turns from token `b` on come to an end at token `r`, from which there is no further one. -/
inductive TurnsTo (s : TokenStream) (start : Nat) : Nat → Nat → Prop
  | stop {b : Nat} : (∀ n, ¬ s.Turn start b n) → s.TurnsTo start b b
  | turn {b n r : Nat} : s.Turn start b n → s.TurnsTo start n r → s.TurnsTo start b r

/-- Token `n` is not a comment. -/
def IsCode (s : TokenStream) (n : Nat) : Prop := ∃ t, s.get? n = some t ∧ t.isComment = false

/-- Token `n` is the first token after token `b` that is not a comment. -/
structure NextCode (s : TokenStream) (b n : Nat) : Prop where
  lt : b < n
  code : s.IsCode n
  comments : ∀ j, b < j → j < n → ¬ s.IsCode j

/-- Token `n` is the first code after token `b`, and a closing parenthesis that groups the
callee. -/
structure Linked (s : TokenStream) (start b n : Nat) : Prop where
  next : s.NextCode b n
  groups : s.GroupsAt start n

/-- The partner of the parenthesis `n` stands before that of the parenthesis `m`. -/
def Outward (s : TokenStream) (m n : Nat) : Prop :=
  ∃ p q, s.partner? m = some p ∧ s.partner? n = some q ∧ q < p

/-- The parentheses `ns` are the longest chain of links from token `b`: each one is linked to the
one before, and all other chains are parts of it. They are the code after token `b` up to the last
of them, and the first code after that does not group the callee (`last`). Each one has its partner
further out than all before. -/
structure GroupingChain (s : TokenStream) (start b : Nat) (ns : List Nat) : Prop where
  links : (b :: ns).IsChain (s.Linked start)
  longest : ∀ ms : List Nat, (b :: ms).IsChain (s.Linked start) → ms <+: ns
  code : ∀ i, i ∈ ns ↔ b < i ∧ i ≤ ns.getLastD b ∧ s.IsCode i
  last : ∀ n, s.NextCode (ns.getLastD b) n → ¬ s.GroupsAt start n
  outward : ns.Pairwise s.Outward

section Links

variable {s : TokenStream} {start b i m n o r : Nat} {ns : List Nat} {t : Token}

/-! ## Turns and links -/

theorem isComment_eq_false_of_opens (h : t.opens = true) : t.isComment = false := by
  simp only [Token.opens, Token.isPunctuator, Bool.and_eq_true, beq_iff_eq] at h
  simp [Token.isComment, h.1]

theorem codeFrom?_succ_eq_some_iff : s.codeFrom? (b + 1) = some n ↔ s.NextCode b n := by
  rw [codeFrom?_eq_some_iff]
  constructor
  · rintro ⟨hlt, hcode, hcomments⟩
    refine ⟨hlt, hcode, ?_⟩
    rintro j hbj hjn ⟨u, hu, hfalse⟩
    rw [hcomments j u hbj hjn hu] at hfalse
    cases hfalse
  · rintro ⟨hlt, hcode, hcomments⟩
    refine ⟨hlt, hcode, fun j u hbj hjn hu => ?_⟩
    rw [← Bool.not_eq_false]
    exact fun hfalse => hcomments j hbj hjn ⟨u, hu, hfalse⟩

/-- Over tokens in order a turn is a link. -/
theorem InOrder.turn_iff (h : s.InOrder) : s.Turn start b n ↔ s.Linked start b n := by
  constructor
  · rintro ⟨t, ht, hcode, hgroups⟩
    rw [h.codeAfter?_stop ht] at hcode
    exact ⟨codeFrom?_succ_eq_some_iff.1 hcode, hgroups⟩
  · rintro ⟨hnext, hgroups⟩
    obtain ⟨u, hu, -⟩ := hnext.code
    obtain ⟨t, ht⟩ := exists_get?_of_lt_size (hnext.lt.trans (lt_size_of_get? hu))
    refine ⟨t, ht, ?_, hgroups⟩
    rw [h.codeAfter?_stop ht]
    exact codeFrom?_succ_eq_some_iff.2 hnext

/-- A turn that goes ahead is the step of the search. -/
theorem grouping?_eq_some_iff_turn :
    s.grouping? start b = some n ↔ s.Turn start b n ∧ b < n := by
  rw [grouping?_eq_some_iff]
  constructor
  · rintro ⟨t, closer, o, opener, ht, hcode, hcloser, ho, hopener, hcloses, hstart, hlt⟩
    exact ⟨⟨t, ht, hcode, closer, o, opener, hcloser, hcloses, ho, hopener, hstart⟩, hlt⟩
  · rintro ⟨⟨t, ht, hcode, closer, o, opener, hcloser, hcloses, ho, hopener, hstart⟩, hlt⟩
    exact ⟨t, closer, o, opener, ht, hcode, hcloser, ho, hopener, hcloses, hstart, hlt⟩

/-- Over tokens in order every turn goes ahead. -/
theorem InOrder.grouping?_eq_some_iff_linked (h : s.InOrder) :
    s.grouping? start b = some n ↔ s.Linked start b n := by
  rw [grouping?_eq_some_iff_turn, h.turn_iff]
  exact and_iff_left_of_imp fun hlink => hlink.next.lt

theorem InOrder.grouping?_eq_none_iff_linked (h : s.InOrder) :
    s.grouping? start b = none ↔ ∀ n, ¬ s.Linked start b n := by
  simp only [Option.eq_none_iff_forall_ne_some, ne_eq, h.grouping?_eq_some_iff_linked]

/-! ## The end of the turns -/

/-- Over tokens in order the turns do not go on forever: each one leaves fewer tokens ahead. -/
theorem InOrder.not_exists_turns (h : s.InOrder) (start : Nat) :
    ¬ ∃ f : Nat → Nat, ∀ k, s.Turn start (f k) (f (k + 1)) := by
  rintro ⟨f, hf⟩
  have hahead : ∀ k, k ≤ f k := by
    intro k
    induction k with
    | zero => exact Nat.zero_le _
    | succ k ih => exact Nat.succ_le_of_lt (ih.trans_lt (h.turn_iff.1 (hf k)).next.lt)
  -- after as many turns as there are tokens the stream is left behind
  obtain ⟨t, ht, -⟩ := hf s.size
  exact absurd (lt_size_of_get? ht) (hahead s.size).not_gt

/-- The turns come to an end at the answer of the search. -/
theorem InOrder.turnsTo_outermost (h : s.InOrder) (start b : Nat) :
    s.TurnsTo start b (s.outermost start b) := by
  fun_induction outermost s start b with
  | case1 b hnone =>
      refine .stop fun n hn => ?_
      exact h.grouping?_eq_none_iff_linked.1 hnone n (h.turn_iff.1 hn)
  | case2 b next hnext ih =>
      exact .turn (grouping?_eq_some_iff_turn.1 hnext).1 ih

/-! ## The longest chain -/

theorem NextCode.unique (hm : s.NextCode b m) (hn : s.NextCode b n) : m = n := by
  rcases Nat.lt_trichotomy m n with hlt | heq | hlt
  · exact absurd hm.code (hn.comments m hm.lt hlt)
  · exact heq
  · exact absurd hn.code (hm.comments n hn.lt hlt)

/-- The turns of the search run through a chain that cannot be made longer. -/
theorem InOrder.exists_chain (h : s.InOrder) (start b : Nat) :
    ∃ ns : List Nat, (b :: ns).IsChain (s.Linked start) ∧
      ns.getLastD b = s.outermost start b ∧ ∀ n, ¬ s.Linked start (s.outermost start b) n := by
  fun_induction outermost s start b with
  | case1 b hnone =>
      exact ⟨[], .singleton b, rfl, h.grouping?_eq_none_iff_linked.1 hnone⟩
  | case2 b next hnext ih =>
      obtain ⟨ns, hchain, hlast, hend⟩ := ih
      refine ⟨next :: ns, ?_, ?_, hend⟩
      · exact List.isChain_cons_cons.2 ⟨h.grouping?_eq_some_iff_linked.1 hnext, hchain⟩
      · rwa [List.getLastD_cons]

/-- All chains from a token are parts of one that cannot be made longer: what a token is linked to
is the first code after it. -/
theorem prefix_of_isChain (hns : (b :: ns).IsChain (s.Linked start))
    (hend : ∀ n, ¬ s.Linked start (ns.getLastD b) n) {ms : List Nat}
    (hms : (b :: ms).IsChain (s.Linked start)) : ms <+: ns := by
  induction ms generalizing b ns with
  | nil => exact List.nil_prefix
  | cons m ms ih =>
      obtain ⟨hm, hms⟩ := List.isChain_cons_cons.1 hms
      cases ns with
      | nil => exact absurd hm (hend m)
      | cons n ns =>
          obtain ⟨hn, hns⟩ := List.isChain_cons_cons.1 hns
          rw [List.getLastD_cons] at hend
          obtain rfl := hm.next.unique hn.next
          exact List.cons_prefix_cons.2 ⟨rfl, ih hns hend hms⟩

/-- A chain goes ahead. -/
theorem le_getLastD_of_isChain (h : (b :: ns).IsChain (s.Linked start)) : b ≤ ns.getLastD b := by
  induction ns generalizing b with
  | nil => exact le_rfl
  | cons n ns ih =>
      obtain ⟨hn, hns⟩ := List.isChain_cons_cons.1 h
      rw [List.getLastD_cons]
      exact hn.next.lt.le.trans (ih hns)

/-- A chain leaves no code out. -/
theorem mem_iff_of_isChain (h : (b :: ns).IsChain (s.Linked start)) :
    i ∈ ns ↔ b < i ∧ i ≤ ns.getLastD b ∧ s.IsCode i := by
  induction ns generalizing b with
  | nil =>
      simp only [List.not_mem_nil, List.getLastD_nil, false_iff]
      rintro ⟨hlt, hle, -⟩
      exact absurd hlt hle.not_gt
  | cons n ns ih =>
      obtain ⟨hn, hns⟩ := List.isChain_cons_cons.1 h
      rw [List.mem_cons, ih hns, List.getLastD_cons]
      have hlast := le_getLastD_of_isChain hns
      constructor
      · rintro (rfl | ⟨hlt, hle, hcode⟩)
        · exact ⟨hn.next.lt, hlast, hn.next.code⟩
        · exact ⟨hn.next.lt.trans hlt, hle, hcode⟩
      · rintro ⟨hlt, hle, hcode⟩
        -- before the next token of the chain there are comments only
        rcases Nat.lt_trichotomy i n with hin | rfl | hni
        · exact absurd hcode (hn.next.comments i hlt hin)
        · exact .inl rfl
        · exact .inr ⟨hni, hle, hcode⟩

/-! ## The partners -/

/-- The partner of a closing parenthesis is an opening one before it. -/
theorem partner?_of_closes (ht : s.get? n = some t) (hc : t.closes = true)
    (ho : s.partner? n = some o) : o < n ∧ ∃ u, s.get? o = some u ∧ u.opens = true := by
  rw [← ofList_toList s, Pairing.partner?_eq_some_iff] at ho
  rcases ho with hpair | hpair
  · obtain ⟨t', ht', hopens⟩ := hpair.opens
    have : t' = t := by simpa [get?, ← Array.getElem?_toList, ht'] using ht
    rw [this] at hopens
    exact absurd hopens (Token.not_opens_of_closes hc)
  · obtain ⟨u, hu, hopens⟩ := hpair.opens
    exact ⟨hpair.lt, u, by simpa [get?, ← Array.getElem?_toList] using hu, hopens⟩

/-- Of two grouping parentheses that are linked the later one is paired further out. -/
theorem outward_of_linked (hm : s.GroupsAt start m) (hn : s.Linked start m n) :
    s.Outward m n := by
  obtain ⟨t, p, -, ht, hc, hp, -, -⟩ := hm
  obtain ⟨t', q, -, ht', hc', hq, -, -⟩ := hn.groups
  obtain ⟨hpm, -⟩ := partner?_of_closes ht hc hp
  obtain ⟨hqn, u, hu, hopens⟩ := partner?_of_closes ht' hc' hq
  refine ⟨p, q, hp, hq, ?_⟩
  by_contra hle
  rw [not_lt] at hle
  -- an opening parenthesis is code, so that it does not stand between the two
  have hqm : q < m := by
    rcases Nat.lt_trichotomy q m with hlt | rfl | hlt
    · exact hlt
    · rw [ht, Option.some.injEq] at hu
      rw [← hu] at hopens
      exact absurd hopens (Token.not_opens_of_closes hc)
    · exact absurd ⟨u, hu, isComment_eq_false_of_opens hopens⟩ (hn.next.comments q hlt hqn)
  rw [← ofList_toList s] at hp hq
  have hmn := hn.next.lt
  rcases Nat.lt_or_eq_of_le hle with hlt | rfl
  · -- the pairs would cross
    have := Pairing.between_of_partner? (Pairing.partner?_comm.1 hp) (Pairing.partner?_comm.1 hq)
      hlt hqm
    omega
  · have := Option.some.inj ((Pairing.partner?_comm.1 hp).symm.trans (Pairing.partner?_comm.1 hq))
    omega

instance : Trans s.Outward s.Outward s.Outward where
  trans := by
    rintro a b c ⟨p, q, hp, hq, hlt⟩ ⟨q', r, hq', hr, hlt'⟩
    obtain rfl := Option.some.inj (hq.symm.trans hq')
    exact ⟨p, r, hp, hr, hlt'.trans hlt⟩

theorem isChain_outward (h : (b :: ns).IsChain (s.Linked start)) : ns.IsChain s.Outward := by
  induction ns generalizing b with
  | nil => exact .nil
  | cons m ns ih =>
      obtain ⟨hm, hns⟩ := List.isChain_cons_cons.1 h
      cases ns with
      | nil => exact .singleton m
      | cons n ns =>
          obtain ⟨hn, -⟩ := List.isChain_cons_cons.1 hns
          exact List.isChain_cons_cons.2 ⟨outward_of_linked hm.groups hn, ih hns⟩

/-! ## The boundary -/

/-- The search runs through the longest chain. -/
theorem InOrder.exists_groupingChain (h : s.InOrder) (start b : Nat) :
    ∃ ns, s.GroupingChain start b ns ∧ ns.getLastD b = s.outermost start b := by
  obtain ⟨ns, hchain, hlast, hend⟩ := h.exists_chain start b
  rw [← hlast] at hend
  refine ⟨ns, ⟨hchain, ?_, ?_, ?_, ?_⟩, hlast⟩
  · exact fun ms => prefix_of_isChain hchain hend
  · exact fun i => mem_iff_of_isChain hchain
  · exact fun n hn hgroups => hend n ⟨hn, hgroups⟩
  · exact (isChain_outward hchain).pairwise

/-- The boundary of a callee is missing exactly if no token ends where the callee does. Otherwise
the turns from the token that ends there come to an end, and the boundary is the last token of the
longest chain of grouping parentheses. -/
theorem InOrder.boundary_chain (h : s.InOrder) (callee : Span) :
    (¬ ∃ f : Nat → Nat, ∀ k, s.Turn callee.start (f k) (f (k + 1))) ∧
      (s.boundary callee = .error (.calleeEndMissing callee.stop) ↔
        s.NoneEndsAt callee.stop) ∧
      ∀ b t, s.get? b = some t → t.span.stop = callee.stop →
        ∃ ns, s.GroupingChain callee.start b ns ∧
          s.TurnsTo callee.start b (ns.getLastD b) ∧
          s.boundary callee = .ok (ns.getLastD b) := by
  refine ⟨h.not_exists_turns callee.start, ?_, ?_⟩
  · rcases h.boundary_spec callee with ⟨i, t, ht, hstop, hok⟩ | ⟨hnone, herror⟩
    · rw [hok]
      simp only [reduceCtorEq, false_iff]
      exact fun hnone => hnone i t ht hstop
    · exact iff_of_true herror hnone
  · intro b t ht hstop
    obtain ⟨ns, hchain, hlast⟩ := h.exists_groupingChain callee.start b
    refine ⟨ns, hchain, ?_, ?_⟩
    · rw [hlast]
      exact h.turnsTo_outermost callee.start b
    · rw [hlast]
      exact h.boundary_eq_ok ht hstop

end Links

end TokenStream

/-! ## Two groupings -/

open TokenStream

/-- The tokens of `((f()/**/))(0)` as a stream. -/
def nestedStream : TokenStream := ofList nestedTokens

theorem nestedStream_inOrder : nestedStream.InOrder where
  nonempty := by decide
  ordered := by decide

theorem nestedStream_isChain : [4, 6, 7].IsChain (nestedStream.Linked 2) := by
  have hcomment : ∀ j, 4 < j → j < 6 → ¬ nestedStream.IsCode j := by
    rintro j hj hj' ⟨t, ht, hcode⟩
    obtain rfl : j = 5 := by omega
    rw [← Option.some.inj ht] at hcode
    cases hcode
  have hinner : nestedStream.Linked 2 4 6 :=
    ⟨⟨by decide, ⟨_, rfl, rfl⟩, hcomment⟩, _, 1, _, rfl, rfl, rfl, rfl, by decide⟩
  have houter : nestedStream.Linked 2 6 7 :=
    ⟨⟨by decide, ⟨_, rfl, rfl⟩, by omega⟩, _, 0, _, rfl, rfl, rfl, rfl, by decide⟩
  exact List.isChain_cons_cons.2 ⟨hinner, List.isChain_cons_cons.2 ⟨houter, .singleton 7⟩⟩

/-- After the two groupings comes the parenthesis of the arguments. -/
theorem nestedStream_not_linked (n : Nat) : ¬ nestedStream.Linked 2 7 n := by
  rintro ⟨hnext, t, -, -, ht, hcloses, -⟩
  obtain rfl : n = 8 := hnext.unique ⟨by decide, ⟨_, rfl, rfl⟩, by omega⟩
  rw [← Option.some.inj ht] at hcloses
  cases hcloses

/-- The callee of `((f()/**/))(0)` is `f()`, and its boundary is the outer one of the two
parentheses that group it. -/
theorem TokenStream.InOrder.boundary_chain_nestedStream :
    nestedStream.InOrder ∧ nestedStream.GroupingChain 2 4 [6, 7] ∧
      nestedStream.boundary ⟨2, 5⟩ = .ok 7 := by
  refine ⟨nestedStream_inOrder, ?_⟩
  obtain ⟨-, -, hends⟩ := nestedStream_inOrder.boundary_chain ⟨2, 5⟩
  obtain ⟨ns, hchain, -, hboundary⟩ := hends 4 _ rfl rfl
  have hle : [6, 7] <+: ns := hchain.longest [6, 7] nestedStream_isChain
  have hge : ns <+: [6, 7] :=
    prefix_of_isChain nestedStream_isChain nestedStream_not_linked hchain.links
  obtain rfl : ns = [6, 7] := hge.eq_of_length_le hle.length_le
  exact ⟨hchain, hboundary⟩

end ParenGap
