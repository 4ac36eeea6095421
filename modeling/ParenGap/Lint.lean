import ParenGap.Edit
import ParenGap.Gap
import ParenGap.Position
import ParenGap.Site
import ParenGap.Tree.Walk

/-!
# Diagnostics and the check of a text

A text is checked at all of its call sites. What is reported is a diagnostic for each defect and a
fault for each site that cannot be checked.
-/

set_option autoImplicit false

namespace ParenGap

/-! ## Diagnostics

What is reported of a text: the rule that is broken, what is wrong, the places where it shows, and
the edit that mends it. The anchor of a diagnostic is the first place where its violation shows.
-/

/-- The description of a rule; one that is `fixable` proposes edits. -/
structure Rule where
  name : String
  description : String
  fixable : Bool
  deriving DecidableEq, Repr, Inhabited

/-- The rule on the spacing of calls. -/
def Rule.callSpacing : Rule where
  name := "func-call-spacing"
  description := "require or disallow spacing between function identifiers and their invocations"
  fixable := true

/-- All rules. -/
def Rule.all : List Rule := [Rule.callSpacing]

/-- A place in a file, with a remark. -/
structure Label where
  file : String
  region : Region
  text : String
  deriving DecidableEq, Repr, Inhabited

/-- A report on a broken rule. The violation shows at the places of `violations`, of which the first
one is the anchor; `references` are other places that matter. -/
structure Diagnostic where
  rule : Rule
  defect : Defect
  message : String
  callKind : Option CallKind
  violations : List Label
  references : List Label
  edit : Option Edit
  deriving DecidableEq, Repr, Inhabited

namespace Diagnostic

/-- The place that a diagnostic is reported at. -/
def anchor? (d : Diagnostic) : Option Region := d.violations.head?.map Label.region

/-- The type of the syntax node that a diagnostic is about. -/
def nodeType? (d : Diagnostic) : Option String := d.callKind.map CallKind.nodeType

end Diagnostic

/-! ## The check of a whole text

A source is a text together with its lines, its tree and its tokens. It is checked site by site, in
the order in which the sites are visited; a site with a defect gives a diagnostic and a site that
cannot be checked gives a fault. The edits of all diagnostics make the patch that mends the text.
-/

open Text (Line)

/-- A text that is ready to be checked, with its syntax tree, its lines and its tokens. -/
structure Source where
  file : String
  code : List Char
  tree : Tree
  lines : Array Line
  tokens : TokenStream

namespace Source

/-- The source made of a text and its tree, if all leaves of the tree stand in the text. -/
def ofTree? (file : String) (code : List Char) (tree : Tree) : Option Source :=
  (TokenStream.ofTree? tree code).map fun tokens =>
    ⟨file, code, tree, (Text.lines code).toArray, tokens⟩

end Source

/-- The diagnostic of a violation, if its places lie in the text. -/
def Violation.diagnostic? (v : Violation) (file : String) (lines : Array Line) :
    Option Diagnostic :=
  (Region.ofSpan? lines v.anchor).bind fun anchor =>
    (Region.ofSpan? lines v.gap).map fun gap =>
      { rule := Rule.callSpacing
        defect := v.defect
        message := v.defect.message
        callKind := some v.callKind
        violations := [⟨file, anchor, "Callee ends here"⟩]
        references := [⟨file, gap, v.defect.gapLabel⟩]
        edit := some v.edit }

/-- What a check finds: the diagnostics in the order in which their sites are visited, and a fault
for every site that cannot be checked. -/
structure Findings where
  diagnostics : List Diagnostic
  faults : List Fault
  deriving DecidableEq, Repr, Inhabited

namespace Findings

/-- No finding. -/
def empty : Findings := ⟨[], []⟩

/-- Whether nothing is found. -/
def isEmpty (f : Findings) : Bool := f.diagnostics.isEmpty && f.faults.isEmpty

/-- The edits of the diagnostics, in their order. -/
def edits (f : Findings) : List Edit := f.diagnostics.filterMap Diagnostic.edit

end Findings

namespace Source

/-- What is found at the sites of a list. There is no answer if a read falls outside of the text. -/
def checkSites? (source : Source) (policy : Policy) : List Site → Option Findings
  | [] => some Findings.empty
  | site :: sites =>
      match site.check? source.tokens source.code policy with
      | none => none
      | some (.error fault) =>
          (source.checkSites? policy sites).map fun f => { f with faults := fault :: f.faults }
      | some (.ok none) => source.checkSites? policy sites
      | some (.ok (some violation)) =>
          (violation.diagnostic? source.file source.lines).bind fun diagnostic =>
            (source.checkSites? policy sites).map fun f =>
              { f with diagnostics := diagnostic :: f.diagnostics }

/-- What is found in a source under a policy. -/
def check? (source : Source) (policy : Policy) : Option Findings :=
  source.checkSites? policy source.tree.sites

/-- The text with all proposed edits applied that do not collide. -/
def fixed? (source : Source) (policy : Policy) : Option (List Char) :=
  (source.check? policy).bind fun findings =>
    (Patch.ofList findings.edits).applied? source.code

end Source

end ParenGap
