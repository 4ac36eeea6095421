import Mathlib.Data.List.Forall2
import Mathlib.Tactic
import ParenGap.Proofs.Gap.Alignment
import ParenGap.Proofs.Token.Spaces

/-!
# Spacing elsewhere

Two texts with the same tokens may be spaced differently. A site names its tokens by their indexes
(`Site.Names`), and two sites that name the same tokens are aligned (`Names.aligned`), so that
nothing but the order of the tokens decides where their gaps start and stop. If moreover the one
space before the parenthesis is the same in both texts, the sites are judged alike.

The offsets in a fault or a violation are those of its own text. So two answers are compared by the
cause of a fault, and by the defect and the anchor's index of a violation (`SameVerdict`).

The main statement is `Site.Names.check?_of_spaces`.
-/

set_option autoImplicit false

namespace ParenGap

open TokenStream

/-- What is behind a fault. -/
inductive Fault.Cause
  | calleeEnd
  | paren
  | stray
  deriving DecidableEq

/-- The cause of a fault, without its offsets. -/
def Fault.cause : Fault → Fault.Cause
  | .calleeEndMissing _ => .calleeEnd
  | .parenMissing _ => .paren
  | .strayText _ _ => .stray

/-- The callee of the site reaches from the start of token `i` to the stop of token `j`, and its
arguments start at the start of token `k`, or it has none. -/
structure Site.Names (site : Site) (s : TokenStream) (i j : Nat) (k : Option Nat) : Prop where
  start : ∃ t, s.get? i = some t ∧ t.span.start = site.callee.start
  stop : ∃ t, s.get? j = some t ∧ t.span.stop = site.callee.stop
  arguments : Option.Rel (fun k o => ∃ t, s.get? k = some t ∧ t.span.start = o) k
    site.argumentsStart

/-- Two answers of a check say the same of two streams: both find nothing, or both find the same
defect at the same token in a call of the same kind, or both have a fault with the same cause. -/
inductive SameVerdict (s s' : TokenStream) :
    Option (Except Fault (Option Violation)) → Option (Except Fault (Option Violation)) → Prop
  | nothing : SameVerdict s s' (some (.ok none)) (some (.ok none))
  | violation {v v' : Violation} {i : Nat} {t t' : Token} :
      v.defect = v'.defect → v.callKind = v'.callKind →
      s.get? i = some t → v.anchor = t.span → s'.get? i = some t' → v'.anchor = t'.span →
      SameVerdict s s' (some (.ok (some v))) (some (.ok (some v')))
  | fault {fault fault' : Fault} : fault.cause = fault'.cause →
      SameVerdict s s' (some (.error fault)) (some (.error fault'))

section Causes

variable {α β ε : Type} {s s' : TokenStream} {code code' : List Char} {site site' : Site}
  {fault : Fault} {i j : Nat} {k : Option Nat}

/-- Answers are equal up to the cause of a fault if both are the same answer, or both are faults
with the same cause. -/
theorem mapError_eq_iff {f : ε → β} {x y : Except ε α} :
    x.mapError f = y.mapError f ↔
      (∃ a, x = .ok a ∧ y = .ok a) ∨ ∃ e e', x = .error e ∧ y = .error e' ∧ f e = f e' := by
  cases x <;> cases y <;> simp [Except.mapError, eq_comm]

/-- Faults with one cause only are equal up to the cause if the other answers are equal. -/
theorem mapError_eq_of_ok {c : β} {f : ε → β} {x y : Except ε α}
    (hxy : ∀ a, x = .ok a → y = .ok a) (hyx : ∀ a, y = .ok a → x = .ok a)
    (hx : ∀ e, x = .error e → f e = c) (hy : ∀ e, y = .error e → f e = c) :
    x.mapError f = y.mapError f := by
  rw [mapError_eq_iff]
  cases x with
  | ok a => exact Or.inl ⟨a, rfl, hxy a rfl⟩
  | error e =>
      cases y with
      | ok a => cases hyx a rfl
      | error e' => exact Or.inr ⟨e, e', rfl, rfl, (hx e rfl).trans (hy e' rfl).symm⟩

theorem TokenStream.InOrder.cause_of_openParen (h : s.InOrder) (hp : s.openParen site = .error fault) :
    fault.cause = .paren := by
  rcases h.openParen_spec site with ⟨-, hopen⟩ | ⟨o, -, ⟨p, -, hopen⟩ | ⟨-, hopen⟩⟩
  · rw [hp] at hopen
    cases hopen
  · rw [hp] at hopen
    cases hopen
  · rw [hp] at hopen
    cases hopen
    rfl

theorem TokenStream.InOrder.cause_of_boundary {callee : Span} (h : s.InOrder)
    (hb : s.boundary callee = .error fault) : fault.cause = .calleeEnd := by
  rcases h.boundary_spec callee with ⟨i, t, -, -, hi⟩ | ⟨-, hend⟩
  · rw [hb] at hi
    cases hi
  · rw [hb] at hend
    cases hend
    rfl

/-- Tokens with the same kinds and texts, each where its text stands, are alike. -/
theorem TokenStream.LiesIn.alike (h : s.LiesIn code) (h' : s'.LiesIn code')
    (htokens : s.tokens.toList.map (fun t => (t.kind, t.text)) =
      s'.tokens.toList.map fun t => (t.kind, t.text)) : s.Alike s' := by
  -- the length of a token is that of its text
  have hlength : ∀ {s : TokenStream} {code : List Char}, s.LiesIn code →
      ∀ t ∈ s.tokens.toList, t.span.length = Text.byteLength t.text := by
    intro s code h t ht
    have hlen := Text.add_byteLength_of_slice? (h.texts t ht)
    rw [Span.length]
    omega
  rw [← List.forall₂_eq_eq_eq, List.forall₂_map_left_iff, List.forall₂_map_right_iff,
    List.forall₂_iff_get] at htokens
  obtain ⟨hsize, htokens⟩ := htokens
  refine List.forall₂_iff_get.2 ⟨hsize, fun n hn hn' => ?_⟩
  obtain ⟨hkind, htext⟩ := Prod.mk.inj (htokens n hn hn')
  refine ⟨hkind, htext, ?_⟩
  rw [hlength h _ (List.get_mem _ _), hlength h' _ (List.get_mem _ _), htext]

/-- Sites of one kind that name the same tokens are aligned. -/
theorem Site.Names.aligned (hnames : site.Names s i j k) (hnames' : site'.Names s' i j k)
    (hkind : site.kind = site'.kind) (h : s.Alike s') (hs : s.InOrder) (hs' : s'.InOrder) :
    site.Aligned site' s s' := by
  obtain ⟨⟨t, ht, hstart⟩, ⟨u, hu, hstop⟩, harguments⟩ := hnames
  obtain ⟨⟨t', ht', hstart'⟩, ⟨u', hu', hstop'⟩, harguments'⟩ := hnames'
  -- an index stands for one place in both streams
  refine ⟨hkind, ?_, ?_, ?_⟩
  · rw [← hstart, ← hstart']
    exact hs.alignedStart ht ht'
  · rw [← hstop, ← hstop']
    exact h.alignedStop hs hs' hu hu'
  · generalize site.argumentsStart = o at harguments ⊢
    generalize site'.argumentsStart = o' at harguments' ⊢
    cases harguments with
    | none =>
        cases harguments'
        exact .none
    | some ho =>
        cases harguments' with
        | some ho' =>
            obtain ⟨v, hv, rfl⟩ := ho
            obtain ⟨v', hv', rfl⟩ := ho'
            exact .some (hs.alignedStart hv hv')

/-- The arguments of a named site start at no other token. -/
theorem Site.Names.eq_of_opensAt {o p : Nat} (hnames : site.Names s i j k) (hs : s.InOrder)
    (ho : site.argumentsStart = some o) (hp : s.OpensAt o p) : k = some p := by
  have harguments := hnames.arguments
  rw [ho] at harguments
  cases harguments with
  | some hk =>
      obtain ⟨t, ht, hto⟩ := hk
      obtain ⟨u, hu, -, huo⟩ := hp
      rw [hs.index_eq_of_start_eq ht hu (by omega)]

end Causes

/-! ## Aligned sites -/

namespace Site.Aligned

variable {s s' : TokenStream} {code code' : List Char} {site site' : Site}

theorem openParen_eq (ha : site.Aligned site' s s') (h : s.Alike s') (hs : s.InOrder)
    (hs' : s'.InOrder) :
    (s.openParen site).mapError Fault.cause = (s'.openParen site').mapError Fault.cause := by
  apply mapError_eq_of_ok
  · intro found hp
    exact ha.openParen_eq_ok h hs hs' hp
  · intro found hp
    exact (ha.symm h hs').openParen_eq_ok h.symm hs' hs hp
  · intro fault hp
    exact hs.cause_of_openParen hp
  · intro fault hp
    exact hs'.cause_of_openParen hp

theorem boundary_eq (ha : site.Aligned site' s s') (h : s.Alike s') (hs : s.InOrder)
    (hs' : s'.InOrder) :
    (s.boundary site.callee).mapError Fault.cause =
      (s'.boundary site'.callee).mapError Fault.cause := by
  apply mapError_eq_of_ok
  · intro b hb
    exact ha.boundary_eq_ok h hs hs' hb
  · intro b hb
    exact (ha.symm h hs').boundary_eq_ok h.symm hs' hs hb
  · intro fault hb
    exact hs.cause_of_boundary hb
  · intro fault hb
    exact hs'.cause_of_boundary hb

/-- The joint is found on both sides, or it fails on both sides for the same cause. -/
theorem joint_eq (ha : site.Aligned site' s s') (h : s.Alike s') (hs : s.InOrder)
    (hs' : s'.InOrder) :
    (site.joint s).mapError Fault.cause = (site'.joint s').mapError Fault.cause := by
  rcases mapError_eq_iff.1 (ha.openParen_eq h hs hs') with
    ⟨found, hp, hp'⟩ | ⟨fault, fault', hp, hp', hcause⟩
  · cases found with
    | none => rw [joint, joint, hp, hp']
    | some p =>
        rcases mapError_eq_iff.1 (ha.boundary_eq h hs hs') with
          ⟨b, hb, hb'⟩ | ⟨fault, fault', hb, hb', hcause⟩
        · -- an inverted gap is inverted on both sides
          simp only [joint, hp, hp', hb, hb']
          by_cases hpb : p ≤ b
          · rw [if_pos hpb, if_pos hpb]
            rfl
          · rw [if_neg hpb, if_neg hpb]
        · simp only [joint, hp, hp', hb, hb']
          exact mapError_eq_iff.2 (Or.inr ⟨fault, fault', rfl, rfl, hcause⟩)
  · simp only [joint, hp, hp']
    exact mapError_eq_iff.2 (Or.inr ⟨fault, fault', rfl, rfl, hcause⟩)

/-- Equal texts in the gaps of two calls of one kind are judged alike. -/
theorem sameVerdict_judge {b : Nat} {t t' : Token} {gap gap' : Span}
    (hkind : site.kind = site'.kind) (ht : s.get? b = some t) (ht' : s'.get? b = some t')
    (policy : Policy) (text : List Char) :
    SameVerdict s s' (some (site.judge policy t.span gap text))
      (some (site'.judge policy t'.span gap' text)) := by
  unfold judge
  cases text.all Text.isBlank with
  | false => exact .fault rfl
  | true =>
      -- the policy and whether the text is empty decide, and both are shared
      cases policy <;> cases text.isEmpty
      · exact .violation rfl hkind ht rfl ht' rfl
      · exact .nothing
      · exact .nothing
      · exact .violation rfl hkind ht rfl ht' rfl

/-- Aligned sites with the same space at their joint get the same verdict. -/
theorem sameVerdict (ha : site.Aligned site' s s') (h : s.Alike s') (hs : s.LiesIn code)
    (hs' : s'.LiesIn code')
    (hspace : ∀ b, site.joint s = .ok (some b) →
      s.space? code (b + 1) = s'.space? code' (b + 1)) (policy : Policy) :
    SameVerdict s s' (site.check? s code policy) (site'.check? s' code' policy) := by
  rcases mapError_eq_iff.1 (ha.joint_eq h hs.toInOrder hs'.toInOrder) with
    ⟨found, hj, hj'⟩ | ⟨fault, fault', hj, hj', hcause⟩
  · cases found with
    | none =>
        rw [check?_of_joint_none hs hj, check?_of_joint_none hs' hj']
        exact .nothing
    | some b =>
        obtain ⟨t, u, text, ht, hu, htext, hc⟩ := check?_of_joint_some hs hj policy
        obtain ⟨t', u', text', ht', hu', htext', hc'⟩ := check?_of_joint_some hs' hj' policy
        -- the text at the joint is the space before the parenthesis
        have heq := hspace b hj
        rw [space?_succ code ht hu, space?_succ code' ht' hu', htext, htext',
          Option.some.injEq] at heq
        rw [hc, hc', heq]
        exact sameVerdict_judge ha.kind_eq ht ht' policy text'
  · rw [check?_of_joint_error hs hj, check?_of_joint_error hs' hj']
    exact .fault hcause

end Site.Aligned

section Spacing

variable {s s' : TokenStream} {code code' : List Char} {site site' : Site} {i j : Nat}
  {k : Option Nat}

/-- In texts with the same tokens, sites of one kind that name the same tokens have the same
parenthesis and the same boundary, or faults with the same cause. If the space before the
parenthesis is the same in both texts, the sites get the same verdict under both policies, whatever
the other spaces are. -/
theorem Site.Names.check?_of_spaces (hs : s.LiesIn code) (hs' : s'.LiesIn code')
    (htokens : s.tokens.toList.map (fun t => (t.kind, t.text)) =
      s'.tokens.toList.map fun t => (t.kind, t.text))
    (hkind : site.kind = site'.kind) (hnames : site.Names s i j k)
    (hnames' : site'.Names s' i j k) :
    (s.openParen site).mapError Fault.cause = (s'.openParen site').mapError Fault.cause ∧
      (s.boundary site.callee).mapError Fault.cause =
        (s'.boundary site'.callee).mapError Fault.cause ∧
      ((∀ b, k = some (b + 1) → s.space? code (b + 1) = s'.space? code' (b + 1)) →
        ∀ policy, SameVerdict s s' (site.check? s code policy) (site'.check? s' code' policy)) := by
  have halike : s.Alike s' := hs.alike hs' htokens
  have haligned : site.Aligned site' s s' :=
    hnames.aligned hnames' hkind halike hs.toInOrder hs'.toInOrder
  refine ⟨haligned.openParen_eq halike hs.toInOrder hs'.toInOrder,
    haligned.boundary_eq halike hs.toInOrder hs'.toInOrder, fun hspace policy => ?_⟩
  refine haligned.sameVerdict halike hs hs' (fun b hj => ?_) policy
  -- a joint is before the parenthesis that the sites name
  obtain ⟨o, ho, hopens, -⟩ := (joint_eq_some_iff hs.toInOrder).1 hj
  exact hspace b (hnames.eq_of_opensAt hs.toInOrder ho hopens)

end Spacing

/-! ## A grouped callee, spread out -/

namespace Site

/-- The text `( f ) (0 )`, whose space before the second parenthesis is that of `(f) (0)`. -/
def spreadCode : List Char := ['(', ' ', 'f', ' ', ')', ' ', '(', '0', ' ', ')']

/-- The tokens of `( f ) (0 )`. -/
def spreadStream : TokenStream := TokenStream.ofList
  [⟨.punctuator, ⟨0, 1⟩, ['(']⟩, ⟨.identifier, ⟨2, 3⟩, ['f']⟩, ⟨.punctuator, ⟨4, 5⟩, [')']⟩,
    ⟨.punctuator, ⟨6, 7⟩, ['(']⟩, ⟨.literal, ⟨7, 8⟩, ['0']⟩, ⟨.punctuator, ⟨9, 10⟩, [')']⟩]

/-- The call in `( f ) (0 )`. -/
def spreadSite : Site := ⟨.call, ⟨0, 10⟩, ⟨2, 3⟩, some 6⟩

theorem spreadStream_liesIn : spreadStream.LiesIn spreadCode where
  nonempty := by decide
  ordered := by decide
  texts := by decide

theorem groupedSite_names : groupedSite.Names groupedStream 1 1 (some 3) :=
  ⟨⟨_, rfl, rfl⟩, ⟨_, rfl, rfl⟩, .some ⟨_, rfl, rfl⟩⟩

theorem spreadSite_names : spreadSite.Names spreadStream 1 1 (some 3) :=
  ⟨⟨_, rfl, rfl⟩, ⟨_, rfl, rfl⟩, .some ⟨_, rfl, rfl⟩⟩

/-- In `( f ) (0 )` the space after the grouping parenthesis is against `never`, as in `(f) (0)`. -/
theorem Names.check?_of_spaces_spreadSite :
    groupedStream.space? groupedCode 3 = spreadStream.space? spreadCode 3 ∧
      ∃ v, spreadSite.check? spreadStream spreadCode .never = some (.ok (some v)) ∧
        v.defect = .unexpectedSpace ∧ v.anchor = ⟨4, 5⟩ := by
  have hspace : groupedStream.space? groupedCode 3 = spreadStream.space? spreadCode 3 := by decide
  refine ⟨hspace, ?_⟩
  have hkind : groupedSite.kind = spreadSite.kind := rfl
  obtain ⟨-, -, hverdict⟩ := Names.check?_of_spaces groupedStream_liesIn spreadStream_liesIn
    (by decide) hkind groupedSite_names spreadSite_names
  have hsame := hverdict (fun b hb => by cases hb; exact hspace) .never
  rw [(check?_eq_violation_iff groupedStream_liesIn).2 violates_groupedSite] at hsame
  generalize hc : spreadSite.check? spreadStream spreadCode .never = answer at hsame
  cases hsame with
  | @violation v v' i t t' hdefect _ ht hanchor ht' hanchor' =>
      -- the anchor is the third token in both texts
      have hclosing : groupedStream.get? 2 = some ⟨.punctuator, ⟨2, 3⟩, [')']⟩ := rfl
      obtain rfl : i = 2 :=
        groupedStream_liesIn.index_eq_of_start_eq ht hclosing (congrArg Span.start hanchor.symm)
      obtain rfl := Option.some.inj ht'
      exact ⟨v', rfl, hdefect.symm, hanchor'⟩

end Site

end ParenGap
