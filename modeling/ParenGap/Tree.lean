import ParenGap.Text
import ParenGap.Token

/-!
# Syntax trees

The tree of a text is made by a parser. Its visible leaves are the tokens of the text.
-/

set_option autoImplicit false

namespace ParenGap

/-! ## Nodes

The tree that a JavaScript parser gives for a text. A node has the name of its kind in the grammar,
its place in the text, and its children in order. Some nodes are named and some stand for a fixed
piece of text, such as a bracket; an extra node, such as a comment, may stand anywhere. The children
of an invocation that matter here carry their role.
-/

/-- The part that a child plays in an invocation: it is called, constructed, or passed. -/
inductive Role
  | function
  | constructor
  | arguments
  deriving DecidableEq, Repr, Inhabited

/-- A node of a syntax tree. A node that is not `named` is a fixed piece of text, and an `extra` one
may stand anywhere. -/
structure Node where
  kind : String
  span : Span
  named : Bool
  extra : Bool
  role : Option Role
  children : List Node
  deriving Inhabited

/-- What a parser gives for a text: the node of all of it, and whether it has a syntax error. -/
structure Tree where
  root : Node
  hasError : Bool
  deriving Inhabited

/-- A parser, which may give up on a text. -/
abbrev Parser := List Char → Option Tree

namespace Node

/-- The first child that plays a part. -/
def child? (n : Node) (role : Role) : Option Node :=
  n.children.find? fun child => child.role == some role

/-- The first child that is named and not an extra. -/
def firstNamed? (n : Node) : Option Node :=
  n.children.find? fun child => child.named && !child.extra

/-- The node at the end of a path of child indexes. -/
def descend? (n : Node) : List Nat → Option Node
  | [] => some n
  | i :: path => n.children[i]?.bind fun child => child.descend? path

end Node

/-! ## The visible leaves of a tree

A tree has no list of tokens of its own; its tokens are its visible leaves. A leaf is a node without
children, or one of the atomic kinds, whose children are parts of a single token. A leaf that covers
no byte was put in by the parser to recover from an error and is not visible.
-/

namespace Node

/-- Kinds that make a single token although the grammar gives them children. -/
def atomicKinds : List String := ["string", "regex", "number", "comment", "html_comment"]

/-- Named leaves that are reserved words or stand for a fixed value. -/
def keywordKinds : List String := ["this", "super", "null", "undefined", "true", "false"]

/-- Whether the node makes a single token. -/
def isLeaf (n : Node) : Bool := n.children.isEmpty || atomicKinds.contains n.kind

mutual

/-- The visible leaves of a node in the order in which they stand. -/
def leaves : Node → List Node
  | ⟨kind, span, named, extra, role, children⟩ =>
      if isLeaf ⟨kind, span, named, extra, role, children⟩ then
        if span.isEmpty then [] else [⟨kind, span, named, extra, role, children⟩]
      else
        leavesOf children

/-- The visible leaves of the nodes of a list. -/
def leavesOf : List Node → List Node
  | [] => []
  | n :: ns => n.leaves ++ leavesOf ns

end

/-- Whether the name of a node's kind ends in the given word. -/
def kindEndsWith (n : Node) (word : String) : Bool := word.toList.isSuffixOf n.kind.toList

/-- The kind of token that a leaf with the given characters makes. A fixed piece of text is a
keyword if it holds ASCII letters only. -/
def tokenKind (n : Node) (text : List Char) : TokenKind :=
  if n.kindEndsWith "comment" then .comment
  else if !n.named then
    if text.all Char.isAlpha then .keyword else .punctuator
  else if keywordKinds.contains n.kind then .keyword
  else if n.kindEndsWith "identifier" then .identifier
  else .literal

/-- The token that a leaf makes, if the leaf stands in the text. -/
def token? (code : List Char) (n : Node) : Option Token :=
  (Text.slice? code n.span.start n.span.stop).map fun text => ⟨n.tokenKind text, n.span, text⟩

end Node

/-- The tokens of the tree of a text, if all its leaves stand in the text. -/
def Tree.tokens? (tree : Tree) (code : List Char) : Option (List Token) :=
  tree.root.leaves.mapM (Node.token? code)

end ParenGap
