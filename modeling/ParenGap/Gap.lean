import ParenGap.Edit
import ParenGap.Site
import ParenGap.Text
import ParenGap.Token

/-!
# Gaps

The gap of a call site stands between the token that ends its callee and the parenthesis that opens
its argument list. A site is checked by finding the two, measuring the gap between them, and asking
a policy for its verdict.
-/

set_option autoImplicit false

namespace ParenGap

/-! ## Spacing policies

What is asked for between a callee and the parenthesis that opens its argument list.
-/

/-- Spacing between a callee and the parenthesis that opens its argument list: none, as in `f()`, or
some, as in `f ()`. -/
inductive Policy
  | never
  | always
  deriving DecidableEq, Repr

namespace Policy

/-- The policy that holds where none is chosen. -/
def default : Policy := .never

instance : Inhabited Policy := ⟨default⟩

/-- The policy's name. -/
def name : Policy → String
  | .never => "never"
  | .always => "always"

/-- The policy with the given name. -/
def ofName? (name : String) : Option Policy :=
  if name == "never" then some .never
  else if name == "always" then some .always
  else none

/-- The policy with the given name, the case of ASCII letters put aside if asked for. -/
def ofWord? (word : String) (ignoreCase : Bool) : Option Policy :=
  if ignoreCase then ofName? (String.ofList (word.toList.map Char.toLower)) else ofName? word

/-- What is said of a word that names no policy. -/
def unknownWord (word : String) : String := "invalid variant: " ++ word

theorem ofName?_name (p : Policy) : ofName? p.name = some p := by cases p <;> rfl

end Policy

/-! ## Faults

What can be wrong with a call site when the tree and the tokens of a text disagree. A fault is
reported for its site, and the other sites are checked nevertheless.
-/

/-- Why a call site cannot be checked: no token ends where the callee ends, the argument list does
not start with an opening parenthesis, or the gap is inverted or holds text that belongs to no token
and is not white space. -/
inductive Fault
  | calleeEndMissing (offset : Nat)
  | parenMissing (offset : Nat)
  | strayText (start stop : Nat)
  deriving DecidableEq, Repr, Inhabited

/-- What is said of a fault. -/
def Fault.message : Fault → String
  | .calleeEndMissing offset =>
      "No token ends at byte " ++ toString offset ++ ", where the callee ends"
  | .parenMissing offset =>
      "Argument list at byte " ++ toString offset ++ " does not start with `('"
  | .strayText start stop =>
      "Bytes " ++ toString start ++ ".." ++ toString stop ++
        " between callee and argument list contain untokenized text"

/-! ## A gap and its verdict

The gap of a call is the text between the token that ends its callee and the parenthesis that opens
its argument list. A gap that holds a token, such as a comment or `?.`, is left alone whatever the
policy is. Of the others, `never` forbids white space and `always` asks for some, a newline being as
good as a space; the edit that mends a gap replaces the whole of it.
-/

/-- The text between a callee and the parenthesis of its argument list, and whether a comment or a
token of another kind lies in it. -/
structure Gap where
  span : Span
  text : List Char
  hasComment : Bool
  hasCode : Bool
  deriving DecidableEq, Repr, Inhabited

/-- What can be wrong with the spacing of a call. -/
inductive Defect
  | missingSpace
  | unexpectedSpace
  deriving DecidableEq, Repr, Inhabited

namespace Defect

/-- Short name in reports. -/
def id : Defect → String
  | .missingSpace => "missing-space"
  | .unexpectedSpace => "unexpected-space"

/-- What is said of a defect. -/
def message : Defect → String
  | .missingSpace => "Missing space between function name and paren."
  | .unexpectedSpace => "Unexpected space between function name and paren."

/-- What is said of the gap itself. -/
def gapLabel : Defect → String
  | .missingSpace => "Space expected here"
  | .unexpectedSpace => "Space found here"

/-- The defect with the given short name. -/
def ofId? (name : String) : Option Defect :=
  if name == "missing-space" then some .missingSpace
  else if name == "unexpected-space" then some .unexpectedSpace
  else none

end Defect

/-- What a policy makes of a gap. One that holds a token is skipped. -/
inductive Verdict
  | compliant
  | skipped
  | defective (defect : Defect)
  deriving DecidableEq, Repr, Inhabited

namespace Gap

/-- Whether the gap covers no byte. -/
def isEmpty (g : Gap) : Bool := g.span.isEmpty

/-- The verdict of a policy. -/
def verdict (g : Gap) (policy : Policy) : Verdict :=
  if g.hasComment || g.hasCode then .skipped
  else
    match policy, g.isEmpty with
    | .never, false => .defective .unexpectedSpace
    | .always, true => .defective .missingSpace
    | _, _ => .compliant

/-- The spacing that a policy puts into a gap. -/
def spacing : Policy → List Char
  | .never => []
  | .always => [' ']

/-- The edit that replaces the gap by the spacing that a policy asks for. -/
def edit (g : Gap) (policy : Policy) : Edit := ⟨g.span, spacing policy⟩

/-- The gap between the tokens `boundary` and `paren`. There is no answer if one of the two is not
in the stream, or if the gap does not lie in the text. -/
def measure? (s : TokenStream) (code : List Char) (boundary paren : Nat) :
    Option (Except Fault Gap) :=
  (s.get? boundary).bind fun before =>
    (s.get? paren).bind fun after =>
      let span : Span := ⟨before.span.stop, after.span.start⟩
      if span.stop < span.start then
        some (.error (.strayText span.start span.stop))
      else
        (Text.slice? code span.start span.stop).map fun text =>
          let inside := s.between span
          if inside.isEmpty && !text.all Text.isBlank then
            .error (.strayText span.start span.stop)
          else
            .ok ⟨span, text, inside.any Token.isComment, inside.any fun t => !t.isComment⟩

end Gap

/-! ## The two ends of a gap

A gap starts after the token that ends the callee and stops at the parenthesis that opens the
argument list.

The token that ends the callee is its last one, or the outermost closing parenthesis that only
groups it, as in `((f))(0)`. A closing parenthesis groups the callee if its partner opens before the
callee starts; the one that closes an inner call, as in `f()()`, is part of the callee.
-/

namespace TokenStream

/-- The closing parenthesis that comes right after the token `b`, comments put aside, and that
groups a callee with the given start. -/
def grouping? (s : TokenStream) (calleeStart b : Nat) : Option Nat :=
  (s.get? b).bind fun token =>
    (s.codeAfter? token.span.stop).bind fun next =>
      (s.get? next).bind fun closer =>
        (s.partner? next).bind fun opening =>
          (s.get? opening).bind fun opener =>
            if closer.closes && decide (opener.span.start < calleeStart) && decide (b < next) then
              some next
            else
              none

theorem grouping?_bounds {s : TokenStream} {calleeStart b next : Nat}
    (h : s.grouping? calleeStart b = some next) : b < next ∧ next < s.tokens.size := by
  simp only [grouping?, Option.bind_eq_some_iff] at h
  obtain ⟨_, _, m, _, closer, hcloser, _, _, _, _, h⟩ := h
  split at h
  · rename_i hcond
    rw [Option.some.injEq] at h
    subst h
    simp only [Bool.and_eq_true, decide_eq_true_eq] at hcond
    exact ⟨hcond.2, (Array.getElem?_eq_some_iff.1 hcloser).1⟩
  · simp at h

/-- The last token of the chain that starts with the token `b` and goes on, as long as there is one,
with the parenthesis that groups the callee and comes right after. -/
def outermost (s : TokenStream) (calleeStart b : Nat) : Nat :=
  match _h : s.grouping? calleeStart b with
  | none => b
  | some next => s.outermost calleeStart next
  termination_by s.tokens.size - b
  decreasing_by
    have := grouping?_bounds _h
    omega

/-- The index of the token after which the gap of a callee starts. -/
def boundary (s : TokenStream) (callee : Span) : Except Fault Nat :=
  match s.endingAt? callee.stop with
  | none => .error (.calleeEndMissing callee.stop)
  | some b => .ok (s.outermost callee.start b)

/-- The index of the parenthesis that opens the argument list of a site, if the site has one. -/
def openParen (s : TokenStream) (site : Site) : Except Fault (Option Nat) :=
  match site.argumentsStart with
  | none => .ok none
  | some offset =>
      match (s.startingAt? offset).filter fun i => (s.get? i).any Token.opens with
      | none => .error (.parenMissing offset)
      | some paren => .ok (some paren)

end TokenStream

/-! ## The check of a call site

A site is checked by finding the two ends of its gap, measuring the gap, and asking the policy for a
verdict. A site without a parenthesized argument list has no gap.
-/

/-- A call site whose gap is not as the policy asks for: what is wrong, the kind of the call, the
token that ends the callee, the gap, and the edit that mends it. -/
structure Violation where
  defect : Defect
  callKind : CallKind
  anchor : Span
  gap : Span
  edit : Edit
  deriving DecidableEq, Repr, Inhabited

/-- Checks a call site under a policy. There is no answer if the gap does not lie in the text. -/
def Site.check? (site : Site) (s : TokenStream) (code : List Char) (policy : Policy) :
    Option (Except Fault (Option Violation)) :=
  match s.openParen site with
  | .error fault => some (.error fault)
  | .ok none => some (.ok none)
  | .ok (some paren) =>
      match s.boundary site.callee with
      | .error fault => some (.error fault)
      | .ok boundary =>
          (s.get? boundary).bind fun anchor =>
            (Gap.measure? s code boundary paren).map fun measured =>
              measured.map fun gap =>
                match gap.verdict policy with
                | .compliant => none
                | .skipped => none
                | .defective defect =>
                    some ⟨defect, site.kind, anchor.span, gap.span, gap.edit policy⟩

end ParenGap
