import ParenGap.Tree

/-!
# Call sites

A call site is a call or a constructor invocation, reduced to the offsets that matter for the gap
between its callee and its arguments. Parentheses that only group the callee are nodes of the tree;
here they are taken off.
-/

set_option autoImplicit false

namespace ParenGap

/-- The kinds of invocation: an ordinary call, as `f(a, b)`, and that of a constructor, as
`new Foo()`. -/
inductive CallKind
  | call
  | construct
  deriving DecidableEq, Repr, Inhabited

namespace CallKind

/-- The word for the kind in reports. -/
def name : CallKind → String
  | .call => "Call"
  | .construct => "Construct"

/-- The type of the syntax node in reports. -/
def nodeType : CallKind → String
  | .call => "CallExpression"
  | .construct => "NewExpression"

end CallKind

/-- A call or constructor invocation: the whole of it, its callee without the parentheses that group
it, and where its parenthesized argument list starts, if it has one. -/
structure Site where
  kind : CallKind
  span : Span
  callee : Span
  argumentsStart : Option Nat
  deriving DecidableEq, Repr, Inhabited

namespace Node

mutual

/-- A node without the parentheses that group it. -/
def ungrouped : Node → Node
  | ⟨kind, span, named, extra, role, children⟩ =>
      if kind == "parenthesized_expression" then
        (ungroupedFirst children).getD ⟨kind, span, named, extra, role, children⟩
      else
        ⟨kind, span, named, extra, role, children⟩

/-- The first node of a list that is named and not an extra, without the parentheses that group
it. -/
def ungroupedFirst : List Node → Option Node
  | [] => none
  | n :: ns => if n.named && !n.extra then some n.ungrouped else ungroupedFirst ns

end

/-- The kind of invocation that a node is, and the role of its callee. -/
def invocation? (n : Node) : Option (CallKind × Role) :=
  if n.kind == "call_expression" then some (.call, .function)
  else if n.kind == "new_expression" then some (.construct, .constructor)
  else none

/-- Where the parenthesized argument list of an invocation starts. A template that stands in the
place of the arguments is none. -/
def argumentsStart? (n : Node) : Option Nat :=
  ((n.child? .arguments).filter fun child => child.kind == "arguments").map
    fun child => child.span.start

/-- The call site that a node is, if it is an invocation with a callee. -/
def site? (n : Node) : Option Site :=
  n.invocation?.bind fun (kind, role) =>
    (n.child? role).map fun callee => ⟨kind, n.span, callee.ungrouped.span, n.argumentsStart?⟩

mutual

/-- The call sites among a node and its descendants, in preorder. -/
def sites : Node → List Site
  | ⟨kind, span, named, extra, role, children⟩ =>
      (site? ⟨kind, span, named, extra, role, children⟩).toList ++ sitesOf children

/-- The call sites among the nodes of a list and their descendants. -/
def sitesOf : List Node → List Site
  | [] => []
  | n :: ns => n.sites ++ sitesOf ns

end

end Node

/-- Whether a site is visited no later than another one: the earlier start first, and of two that
start together the one that reaches further. -/
def Site.visitedBefore (a b : Site) : Bool :=
  decide (a.span.start < b.span.start) ||
    (a.span.start == b.span.start && decide (b.span.stop ≤ a.span.stop))

/-- The call sites of a tree in the order in which they are visited. -/
def Tree.sites (tree : Tree) : List Site :=
  tree.root.sites.mergeSort Site.visitedBefore

end ParenGap
