import ParenGap.Json
import ParenGap.Tree

/-!
# Stores of trees

The trees of some texts, as a JavaScript parser gave them, are kept in a JSON text, in which each
tree is written as an outline.
-/

set_option autoImplicit false

namespace ParenGap

/-! ## Outlines of trees

An outline lists the nodes of a tree in preorder, each with its depth and without its children. The
children of an entry are the entries after it that are one deeper, up to the next entry that is not
deeper than itself.
-/

/-- A node of an outline, without its children, and the number of its ancestors. -/
structure OutlineEntry where
  depth : Nat
  node : Node

namespace Outline

/-- Reads an outline from its end. A stack holds the finished nodes that still lack a parent, with
their depths, the first one on top; an entry takes the nodes off the top that are deeper. -/
def attach (entry : OutlineEntry) (stack : List (Nat × Node)) : List (Nat × Node) :=
  let deeper := stack.takeWhile fun item => decide (entry.depth < item.1)
  let others := stack.dropWhile fun item => decide (entry.depth < item.1)
  (entry.depth, { entry.node with children := deeper.map Prod.snd }) :: others

/-- The nodes of an outline that have no parent in it, each with its descendants. -/
def forest (entries : List OutlineEntry) : List Node :=
  (entries.foldr attach []).map Prod.snd

/-- The root of the tree that an outline describes, if it describes a single one. -/
def root? (entries : List OutlineEntry) : Option Node :=
  match forest entries with
  | [n] => some n
  | _ => none

end Outline

end ParenGap

namespace ParenGap.TreeStore

/-! ## Reading a store

A store holds the trees that a JavaScript parser gave for some texts. It is a JSON object from the
texts to their trees. A tree is an object with the member `has_error` and the member `nodes`, its
outline; an entry of the outline is an array of the depth, the kind, the first and the last offset,
and a number that is odd for a named node and at least `2` for an extra one, followed by the role of
the node in an invocation, if it has one.
-/

/-- The role with the given name. -/
def role? (name : String) : Option Role :=
  if name == "function" then some .function
  else if name == "constructor" then some .constructor
  else if name == "arguments" then some .arguments
  else none

/-- The node that is written by its kind, its offsets and its flags. -/
def node? (kind start stop flags : Json) (role : Option Role) : Option Node :=
  kind.toString?.bind fun kind =>
    start.toNat?.bind fun start =>
      stop.toNat?.bind fun stop =>
        flags.toNat?.map fun flags =>
          { kind
            span := ⟨start, stop⟩
            named := flags % 2 == 1
            extra := decide (2 ≤ flags)
            role
            children := [] }

/-- The entry of an outline that a JSON value writes. -/
def entry? : Json → Option OutlineEntry
  | .array [depth, kind, start, stop, flags] =>
      depth.toNat?.bind fun depth =>
        (node? kind start stop flags none).map fun node => ⟨depth, node⟩
  | .array [depth, kind, start, stop, flags, .string name] =>
      depth.toNat?.bind fun depth =>
        (role? name).bind fun role =>
          (node? kind start stop flags (some role)).map fun node => ⟨depth, node⟩
  | _ => none

/-- The tree that a JSON value writes. -/
def tree? (v : Json) : Option Tree :=
  ((v.member? "nodes").bind Json.toItems?).bind fun items =>
    (items.mapM entry?).bind fun entries =>
      (Outline.root? entries).bind fun root =>
        ((v.member? "has_error").bind Json.toBool?).map fun hasError => ⟨root, hasError⟩

/-- The parser that knows the trees of a store. It gives up on every other text. -/
def parser (store : Json) : Parser := fun code =>
  (store.member? (String.ofList code)).bind tree?

end ParenGap.TreeStore
