import ParenGap.Gap
import ParenGap.Json.Reader

/-!
# Configuration

A configuration is a JSON text that holds a policy. Its value may have one of three shapes, which
are tried one after the other: a record of options, an array of one policy, and an array of none. A
record is an object with its options by name, or an array with its options in their order; `policy`
is its only option, and may be left out. A policy is a string with its name, or an object whose only
member has that name and is `null`. Where no policy is given the default one holds.
-/

set_option autoImplicit false

namespace ParenGap

/-- What can be chosen in a configuration. -/
structure Config where
  policy : Policy
  deriving DecidableEq, Repr, Inhabited

namespace Config

/-- The configuration that holds where none is given. -/
def default : Config := ⟨Policy.default⟩

/-- The policy that a JSON value stands for. -/
def policyOf? : Json → Option Policy
  | .string name => Policy.ofName? name
  | .object [(name, .null)] => Policy.ofName? name
  | _ => none

/-- The configuration that the members of an object stand for, one taken after the other. The policy
may be given once, and nothing else may be given. -/
def ofMembers? : Option Policy → List (String × Json) → Option Config
  | none, [] => some default
  | some policy, [] => some ⟨policy⟩
  | given, (key, v) :: members =>
      if key == "policy" then
        if given.isSome then none
        else (policyOf? v).bind fun policy => ofMembers? (some policy) members
      else none

/-- The configuration that the items of an array stand for, as options in their order. -/
def ofItems? : List Json → Option Config
  | [] => some default
  | [v] => (policyOf? v).map Config.mk
  | _ => none

/-- A record of options. -/
def ofRecord? : Json → Option Config
  | .object members => ofMembers? none members
  | .array items => ofItems? items
  | _ => none

/-- The policies in an array of the given length. -/
def policiesOf? (length : Nat) : Json → Option (List Policy)
  | .array items => if items.length == length then items.mapM policyOf? else none
  | _ => none

/-- An array of one policy. -/
def ofOnePolicy? (v : Json) : Option Config :=
  (policiesOf? 1 v).bind fun policies => policies.head?.map Config.mk

/-- An array of no policy. -/
def ofNoPolicy? (v : Json) : Option Config := (policiesOf? 0 v).map fun _ => default

/-- The shapes of a configuration, in the order in which they are tried. -/
def shapes : List (Json → Option Config) := [ofRecord?, ofOnePolicy?, ofNoPolicy?]

/-- The configuration that a JSON value stands for, by the first shape that it has. -/
def ofJson? (v : Json) : Option Config := shapes.findSome? fun shape => shape v

/-- Why a text is not a configuration: it is not JSON, or JSON of a shape that no configuration
has. -/
inductive ReadError
  | malformed (error : Json.ReadError)
  | shape
  deriving DecidableEq, Repr, Inhabited

/-- What is said of a text that is not a configuration. -/
def ReadError.message : ReadError → String
  | .malformed error => error.message
  | .shape => "data did not match any variant of untagged enum ConfigFile"

/-- The configuration that a text writes. The shape of the value is looked at before what follows
it. -/
def read (text : List Char) : Except ReadError Config :=
  match Json.readFirst text with
  | .error e => .error (.malformed e)
  | .ok (v, rest) =>
      match ofJson? v with
      | none => .error .shape
      | some config =>
          match Json.readEnd text rest with
          | .error e => .error (.malformed e)
          | .ok () => .ok config

end Config

end ParenGap
