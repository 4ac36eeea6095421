import Mathlib.Tactic
import ParenGap.Proofs.Gap.Verdict

/-!
# Checked reads of a token stream

A read of the stream at an index takes for granted that the index is in the stream, and so does a
write to a slot of the pairing. Here every such step is checked: the functions of `Strict` do what
those of the same name do, and have no answer if a step goes outside.

Over tokens in order they always answer, and as the others do. What this rests on is said once for
each kind of index: partners are in the stream (`lt_size_of_partner?`), the searches end in the
stream (`partitionPoint_le_size`), and the loop over the grouping parentheses goes ahead and stays
there (`Strict.outermost?_eq`). The whole check of a site then stays inside
(`Strict.check?_eq`).
-/

set_option autoImplicit false

namespace ParenGap

open TokenStream Search

namespace Strict

/-- Writes to a slot. -/
def write? {α : Type} (xs : Array α) (i : Nat) (x : α) : Option (Array α) :=
  if h : i < xs.size then some (xs.set i x) else none

/-- Pairs the parentheses of the remaining tokens. -/
def pairFrom? : List Token → Nat → List Nat → Array (Option Nat) → Option (Array (Option Nat))
  | [], _, _, partners => some partners
  | t :: ts, i, waiting, partners =>
      if t.opens then
        pairFrom? ts (i + 1) (i :: waiting) partners
      else if t.closes then
        match waiting with
        | [] => pairFrom? ts (i + 1) [] partners
        | o :: waiting =>
            (write? partners o (some i)).bind fun partners =>
              (write? partners i (some o)).bind fun partners =>
                pairFrom? ts (i + 1) waiting partners
      else
        pairFrom? ts (i + 1) waiting partners

/-- The partners of all tokens. -/
def partners? (tokens : List Token) : Option (Array (Option Nat)) :=
  pairFrom? tokens 0 [] (Array.replicate tokens.length none)

/-- The tokens that lie entirely within a span, as the stretch from the first one to the last. -/
def between? (s : TokenStream) (span : Span) : Option (List Token) :=
  let first := partitionPoint s.tokens fun t => decide (t.span.start < span.start)
  let last := partitionPoint s.tokens fun t => decide (t.span.stop ≤ span.stop)
  if last ≤ first then some []
  else if last ≤ s.size then some (s.tokens.extract first last).toList
  else none

/-- The closing parenthesis that comes next and groups a callee, if there is one. -/
def grouping? (s : TokenStream) (calleeStart b : Nat) : Option (Option Nat) :=
  (s.get? b).bind fun token =>
    match s.codeAfter? token.span.stop with
    | none => some none
    | some next =>
        (s.get? next).bind fun closer =>
          if closer.closes then
            match s.partner? next with
            | none => some none
            | some opening =>
                (s.get? opening).map fun opener =>
                  if opener.span.start < calleeStart then some next else none
          else
            some none

/-- The last token of the chain of grouping parentheses that starts with the token `b`. There is no
answer if the chain goes back or leaves the stream. -/
def outermost? (s : TokenStream) (calleeStart b : Nat) : Option Nat :=
  match grouping? s calleeStart b with
  | none => none
  | some none => some b
  | some (some next) =>
      if _h : b < next ∧ next < s.size then outermost? s calleeStart next else none
  termination_by s.size - b
  decreasing_by omega

/-- The index of the token after which the gap of a callee starts. -/
def boundary? (s : TokenStream) (callee : Span) : Option (Except Fault Nat) :=
  match s.endingAt? callee.stop with
  | none => some (.error (.calleeEndMissing callee.stop))
  | some b => (outermost? s callee.start b).map .ok

/-- The index of the parenthesis that opens the argument list of a site, if the site has one. -/
def openParen? (s : TokenStream) (site : Site) : Option (Except Fault (Option Nat)) :=
  match site.argumentsStart with
  | none => some (.ok none)
  | some offset =>
      match s.startingAt? offset with
      | none => some (.error (.parenMissing offset))
      | some p =>
          (s.get? p).map fun t =>
            if t.opens then .ok (some p) else .error (.parenMissing offset)

/-- The gap between the tokens `boundary` and `paren`. -/
def measure? (s : TokenStream) (code : List Char) (boundary paren : Nat) :
    Option (Except Fault Gap) :=
  (s.get? boundary).bind fun before =>
    (s.get? paren).bind fun after =>
      let span : Span := ⟨before.span.stop, after.span.start⟩
      if span.stop < span.start then
        some (.error (.strayText span.start span.stop))
      else
        (between? s span).bind fun inside =>
          (Text.slice? code span.start span.stop).map fun text =>
            if inside.isEmpty && !text.all Text.isBlank then
              .error (.strayText span.start span.stop)
            else
              .ok ⟨span, text, inside.any Token.isComment, inside.any fun t => !t.isComment⟩

/-- Checks a call site under a policy. -/
def check? (site : Site) (s : TokenStream) (code : List Char) (policy : Policy) :
    Option (Except Fault (Option Violation)) :=
  (openParen? s site).bind fun
    | .error fault => some (.error fault)
    | .ok none => some (.ok none)
    | .ok (some paren) =>
        (boundary? s site.callee).bind fun
          | .error fault => some (.error fault)
          | .ok boundary =>
              (s.get? boundary).bind fun anchor =>
                (measure? s code boundary paren).map fun measured =>
                  measured.map fun gap =>
                    match gap.verdict policy with
                    | .compliant => none
                    | .skipped => none
                    | .defective defect =>
                        some ⟨defect, site.kind, anchor.span, gap.span, gap.edit policy⟩

end Strict

/-! ## Pairing -/

section Pairing

variable {ts : List Token} {waiting : List Nat} {partners : Array (Option Nat)} {i n : Nat}

theorem Strict.write?_eq {α : Type} {xs : Array α} (h : i < xs.size) (x : α) :
    write? xs i x = some (xs.setIfInBounds i x) := by
  rw [write?, dif_pos h, Array.setIfInBounds, dif_pos h]

/-- The openings that wait stand before the token that is read, so every slot that is written to is
there. -/
theorem Strict.pairFrom?_eq (hi : i + ts.length ≤ partners.size) (hwaiting : ∀ o ∈ waiting, o < i) :
    pairFrom? ts i waiting partners = some (Pairing.pairFrom ts i waiting partners) := by
  induction ts generalizing i waiting partners with
  | nil => rfl
  | cons t ts ih =>
      rw [List.length_cons] at hi
      have hwaiting' : ∀ o ∈ waiting, o < i + 1 := fun o ho => (hwaiting o ho).trans i.lt_succ_self
      unfold pairFrom? Pairing.pairFrom
      split_ifs with hopens hcloses
      · refine ih (by omega) fun o ho => ?_
        rcases List.mem_cons.1 ho with rfl | ho
        · exact o.lt_succ_self
        · exact hwaiting' o ho
      · cases waiting with
        | nil => exact ih (by omega) hwaiting'
        | cons o waiting =>
            -- the slot of the opening that waited, then the slot of this token
            have ho : o < i := hwaiting o List.mem_cons_self
            simp only []
            rw [write?_eq (by omega), Option.bind_some,
              write?_eq (by rw [Array.size_setIfInBounds]; omega), Option.bind_some]
            refine ih (by simp only [Array.size_setIfInBounds]; omega) fun o' ho' => ?_
            exact hwaiting' o' (List.mem_cons_of_mem o ho')
      · exact ih (by omega) hwaiting'

theorem Strict.partners?_eq (tokens : List Token) :
    partners? tokens = some (Pairing.partners tokens) := by
  refine pairFrom?_eq ?_ fun o ho => ?_
  · rw [Array.size_replicate, Nat.zero_add]
  · cases ho

/-- Only indexes of tokens are written to the slots. -/
theorem Pairing.lt_of_pairFrom (hi : i + ts.length ≤ n) (hwaiting : ∀ o ∈ waiting, o < i)
    (hpartners : ∀ j o : Nat, partners[j]? = some (some o) → o < n) :
    ∀ j o : Nat, (pairFrom ts i waiting partners)[j]? = some (some o) → o < n := by
  induction ts generalizing i waiting partners with
  | nil => exact hpartners
  | cons t ts ih =>
      rw [List.length_cons] at hi
      have hwaiting' : ∀ o ∈ waiting, o < i + 1 := fun o ho => (hwaiting o ho).trans i.lt_succ_self
      unfold pairFrom
      split_ifs with hopens hcloses
      · refine ih (by omega) (fun o ho => ?_) hpartners
        rcases List.mem_cons.1 ho with rfl | ho
        · exact o.lt_succ_self
        · exact hwaiting' o ho
      · cases waiting with
        | nil => exact ih (by omega) hwaiting' hpartners
        | cons o waiting =>
            have ho : o < i := hwaiting o List.mem_cons_self
            refine ih (by omega) (fun o' ho' => hwaiting' o' (List.mem_cons_of_mem o ho')) ?_
            intro j k hjk
            -- a slot holds one of the two indexes, or what it held before
            grind
      · exact ih (by omega) hwaiting' hpartners

/-- The partner of a token is in the stream. -/
theorem TokenStream.lt_size_of_partner? {s : TokenStream} {j o : Nat}
    (h : s.partner? j = some o) : o < s.size := by
  rw [partner?, s.partners_eq, Pairing.partners, Option.join_eq_some_iff] at h
  refine Pairing.lt_of_pairFrom (n := s.size) ?_ ?_ ?_ j o h
  · rw [Nat.zero_add]
    exact le_rfl
  · intro o ho
    cases ho
  · intro j o hjo
    simp [Array.getElem?_replicate] at hjo

end Pairing

/-! ## Searches -/

section Searches

variable {s : TokenStream} {start b : Nat} {t : Token}

theorem bisect_le {p : Nat → Bool} {lo hi : Nat} (h : lo ≤ hi) : bisect p lo hi ≤ hi := by
  fun_induction bisect p lo hi with
  | case1 lo hi hlt _ ih => exact ih (by omega)
  | case2 lo hi hlt _ ih => exact (ih (by omega)).trans (by omega)
  | case3 lo hi hlt => exact h

/-- A search ends in the array, whatever the test is. -/
theorem partitionPoint_le_size {α : Type} (xs : Array α) (p : α → Bool) :
    partitionPoint xs p ≤ xs.size :=
  bisect_le (Nat.zero_le _)

theorem Strict.between?_eq (s : TokenStream) (span : Span) :
    between? s span = some (s.between span) := by
  unfold between? TokenStream.between
  have hle : partitionPoint s.tokens (fun t => decide (t.span.stop ≤ span.stop)) ≤ s.size :=
    partitionPoint_le_size s.tokens _
  dsimp only
  rw [if_pos hle]
  split_ifs with hempty
  · rw [Array.extract_empty_of_stop_le_start hempty]
  · rfl

/-- The next grouping parenthesis is looked for inside of the stream. -/
theorem Strict.grouping?_eq (h : s.InOrder) (hb : b < s.size) :
    grouping? s start b = some (s.grouping? start b) := by
  obtain ⟨t, ht⟩ := exists_get?_of_lt_size hb
  unfold grouping? TokenStream.grouping?
  rw [ht, Option.bind_some, Option.bind_some]
  cases hcode : s.codeAfter? t.span.stop with
  | none => rfl
  | some next =>
      -- the code after a token comes later, and is in the stream
      rw [h.codeAfter?_stop ht] at hcode
      obtain ⟨hlt, ⟨closer, hcloser, -⟩, -⟩ := codeFrom?_eq_some_iff.1 hcode
      simp only [Option.bind_some, hcloser]
      cases hcloses : closer.closes with
      | false => cases hpartner : s.partner? next <;> simp
      | true =>
          cases hpartner : s.partner? next with
          | none => rfl
          | some opening =>
              obtain ⟨opener, hopener⟩ := exists_get?_of_lt_size (lt_size_of_partner? hpartner)
              have hbn : b < next := hlt
              simp [hopener, hbn]

theorem Strict.outermost?_eq (h : s.InOrder) (hb : b < s.size) :
    outermost? s start b = some (s.outermost start b) := by
  fun_induction outermost s start b with
  | case1 b hnone =>
      rw [outermost?, grouping?_eq h hb, hnone]
  | case2 b next hnext ih =>
      -- the loop goes ahead and stays in the stream
      have hbounds : b < next ∧ next < s.size := grouping?_bounds hnext
      rw [outermost?, grouping?_eq h hb, hnext]
      simp only []
      rw [dif_pos hbounds, ih hbounds.2]

theorem Strict.boundary?_eq (h : s.InOrder) (callee : Span) :
    boundary? s callee = some (s.boundary callee) := by
  unfold boundary? boundary
  cases hb : s.endingAt? callee.stop with
  | none => rfl
  | some b =>
      obtain ⟨t, ht, -⟩ := h.endingAt?_eq_some_iff.1 hb
      simp only []
      rw [outermost?_eq h (lt_size_of_get? ht), Option.map_some]

theorem Strict.openParen?_eq (h : s.InOrder) (site : Site) :
    openParen? s site = some (s.openParen site) := by
  unfold openParen? openParen
  cases site.argumentsStart with
  | none => rfl
  | some offset =>
      simp only []
      cases hp : s.startingAt? offset with
      | none => rfl
      | some p =>
          obtain ⟨t, ht, -⟩ := h.startingAt?_eq_some_iff.1 hp
          cases hopens : t.opens <;> simp [ht, hopens, Option.filter]

theorem Strict.measure?_eq (s : TokenStream) (code : List Char) (boundary paren : Nat) :
    measure? s code boundary paren = Gap.measure? s code boundary paren := by
  unfold measure? Gap.measure?
  simp only [between?_eq, Option.bind_some]

/-- The check of a site stays inside of the stream. -/
theorem Strict.check?_eq (h : s.InOrder) (site : Site) (code : List Char) (policy : Policy) :
    check? site s code policy = site.check? s code policy := by
  unfold check? Site.check?
  rw [openParen?_eq h, Option.bind_some]
  rcases s.openParen site with fault | none | paren
  · rfl
  · rfl
  · simp only []
    rw [boundary?_eq h, Option.bind_some]
    cases s.boundary site.callee with
    | error fault => rfl
    | ok b =>
        refine Option.bind_congr fun anchor _ => ?_
        exact congrArg (Option.map _) (measure?_eq s code b paren)

end Searches

end ParenGap
