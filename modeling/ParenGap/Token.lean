import ParenGap.Text

/-!
# Tokens

The tokens of a text stand in order in a stream, in which every parenthesis knows its partner. They
are looked up by their offsets, by halving.
-/

set_option autoImplicit false

namespace ParenGap.Search

/-! ## Search by halving

`bisect` looks for the first index at which a test fails, for a test that holds up to some index and
fails from there on. It halves the range at every step. The main statement, `bisect_eq`, says that
it finds that index.
-/

/-- The first index from `lo` up to `hi` at which `p` fails, or `hi`, found by halving. -/
def bisect (p : Nat → Bool) (lo hi : Nat) : Nat :=
  if _h : lo < hi then
    if p (lo + (hi - lo) / 2) then
      bisect p (lo + (hi - lo) / 2 + 1) hi
    else
      bisect p lo (lo + (hi - lo) / 2)
  else
    lo
  termination_by hi - lo

/-- The number of elements at the front of an array that satisfy `p`, for an array that is
partitioned by `p`. -/
def partitionPoint {α : Type} (xs : Array α) (p : α → Bool) : Nat :=
  bisect (fun i => xs[i]?.any p) 0 xs.size

/-- The test holds below the answer and fails from the answer on, if it is decided so by `k`. -/
theorem bisect_eq {p : Nat → Bool} {k lo hi : Nat} (hlo : lo ≤ k) (hhi : k ≤ hi)
    (hbelow : ∀ i, i < k → p i = true) (habove : ∀ i, k ≤ i → i < hi → p i = false) :
    bisect p lo hi = k := by
  fun_induction bisect p lo hi with
  | case1 lo hi hlt hp ih =>
      refine ih ?_ hhi habove
      apply Nat.lt_of_not_le
      intro hle
      rw [habove _ hle (by omega)] at hp
      exact Bool.noConfusion hp
  | case2 lo hi hlt hp ih =>
      refine ih hlo ?_ fun i hki hi' => habove i hki (by omega)
      apply Nat.le_of_not_lt
      intro hlt'
      exact hp (hbelow _ hlt')
  | case3 lo hi hlt => omega

end ParenGap.Search

namespace ParenGap

/-! ## A token

A token is a visible piece of source text with a broad kind, its place, and its characters.
-/

/-- The broad kinds of token. Reserved words and words that stand for a fixed value are keywords;
numbers, strings, templates and patterns are literals. -/
inductive TokenKind
  | punctuator
  | keyword
  | identifier
  | literal
  | comment
  deriving DecidableEq, Repr, Inhabited

/-- A piece of source text: its kind, where it stands, and its characters. -/
structure Token where
  kind : TokenKind
  span : Span
  text : List Char
  deriving DecidableEq, Repr, Inhabited

namespace Token

/-- Whether a token is a comment. -/
def isComment (t : Token) : Bool := t.kind == .comment

/-- Whether a token is the punctuator with the given characters. -/
def isPunctuator (t : Token) (text : List Char) : Bool :=
  t.kind == .punctuator && t.text == text

/-- Whether a token is an opening parenthesis. -/
def opens (t : Token) : Bool := t.isPunctuator ['(']

/-- Whether a token is a closing parenthesis. -/
def closes (t : Token) : Bool := t.isPunctuator [')']

end Token

end ParenGap

namespace ParenGap.Pairing

/-! ## Pairing of parentheses

Every closing parenthesis is paired with the nearest opening one before it that is still open. The
openings that wait for their partner form a stack; a closing parenthesis without an opening one, and
an opening one that is never closed, have no partner.
-/

/-- Pairs the parentheses of the remaining tokens. `i` is the index of the first of them, `waiting`
holds the indexes of the openings without a partner, the latest one first, and `partners` has a slot
for every token. -/
def pairFrom : List Token → Nat → List Nat → Array (Option Nat) → Array (Option Nat)
  | [], _, _, partners => partners
  | t :: ts, i, waiting, partners =>
      if t.opens then
        pairFrom ts (i + 1) (i :: waiting) partners
      else if t.closes then
        match waiting with
        | [] => pairFrom ts (i + 1) [] partners
        | o :: waiting =>
            pairFrom ts (i + 1) waiting
              ((partners.setIfInBounds o (some i)).setIfInBounds i (some o))
      else
        pairFrom ts (i + 1) waiting partners

/-- For each token the index of its partner, if it is a parenthesis that has one. -/
def partners (tokens : List Token) : Array (Option Nat) :=
  pairFrom tokens 0 [] (Array.replicate tokens.length none)

end ParenGap.Pairing

namespace ParenGap

/-! ## Token streams

The tokens of a text in the order in which they stand, comments included. Tokens do not overlap, so
both their starts and their ends are in order, and every look-up by offset is a search by halving.
-/

open Search (partitionPoint)

/-- Tokens in order, together with the partner of every parenthesis. -/
structure TokenStream where
  tokens : Array Token
  partners : Array (Option Nat)
  partners_eq : partners = Pairing.partners tokens.toList

namespace TokenStream

/-- The stream of tokens that are already in order. -/
def ofList (tokens : List Token) : TokenStream := ⟨tokens.toArray, Pairing.partners tokens, rfl⟩

instance : Inhabited TokenStream := ⟨ofList []⟩

/-- Number of tokens. -/
def size (s : TokenStream) : Nat := s.tokens.size

/-- The token at an index. -/
def get? (s : TokenStream) (i : Nat) : Option Token := s.tokens[i]?

/-- The index of the token that ends exactly at an offset. -/
def endingAt? (s : TokenStream) (offset : Nat) : Option Nat :=
  let i := partitionPoint s.tokens fun t => decide (t.span.stop < offset)
  if (s.get? i).any fun t => t.span.stop == offset then some i else none

/-- The index of the token that starts exactly at an offset. -/
def startingAt? (s : TokenStream) (offset : Nat) : Option Nat :=
  let i := partitionPoint s.tokens fun t => decide (t.span.start < offset)
  if (s.get? i).any fun t => t.span.start == offset then some i else none

/-- The index of the last token that ends at or before an offset. -/
def before? (s : TokenStream) (offset : Nat) : Option Nat :=
  match partitionPoint s.tokens fun t => decide (t.span.stop ≤ offset) with
  | 0 => none
  | i + 1 => some i

/-- The index of the first token that starts at or after an offset. -/
def after? (s : TokenStream) (offset : Nat) : Option Nat :=
  let i := partitionPoint s.tokens fun t => decide (t.span.start < offset)
  if i < s.size then some i else none

/-- The index of the first token from `i` on that is not a comment. -/
def codeFrom? (s : TokenStream) (i : Nat) : Option Nat :=
  if h : i < s.tokens.size then
    if s.tokens[i].isComment then s.codeFrom? (i + 1) else some i
  else
    none
  termination_by s.tokens.size - i

/-- The index of the first token that starts at or after an offset and is not a comment. -/
def codeAfter? (s : TokenStream) (offset : Nat) : Option Nat :=
  (s.after? offset).bind s.codeFrom?

/-- The tokens that lie entirely within a span. -/
def between (s : TokenStream) (span : Span) : List Token :=
  let first := partitionPoint s.tokens fun t => decide (t.span.start < span.start)
  let last := partitionPoint s.tokens fun t => decide (t.span.stop ≤ span.stop)
  (s.tokens.extract first last).toList

/-- The index of the parenthesis that balances the one at an index. -/
def partner? (s : TokenStream) (i : Nat) : Option Nat := s.partners[i]?.join

end TokenStream

end ParenGap
