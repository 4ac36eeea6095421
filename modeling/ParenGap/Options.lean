import ParenGap.Gap

/-!
# Command-line options

The arguments of a run are read from left to right. An option that takes a value takes it from the
same argument or, unless that looks like an option, from the next one. Such an option is settled
only when the next option or file name comes, or at the end: it is then an error if it has got no
value, if it was given before, or if its value is none that it takes. An argument that no option
knows, and a value for an option that takes none, are errors at once.
-/

set_option autoImplicit false

namespace ParenGap

/-- The forms in which diagnostics are reported: lines for a reader, and a JSON array. -/
inductive Format
  | human
  | json
  deriving DecidableEq, Repr, Inhabited

namespace Format

/-- The name of a form. -/
def name : Format → String
  | .human => "human"
  | .json => "json"

/-- The form with the given name. -/
def ofName? (name : String) : Option Format :=
  if name == "human" then some .human
  else if name == "json" then some .json
  else none

end Format

/-- What is asked for on the command line. The file `-` is standard input. -/
structure Options where
  file : String := "-"
  policy : Option Policy := none
  config : Option String := none
  fix : Bool := false
  listRules : Bool := false
  format : Format := .human
  deriving DecidableEq, Repr, Inhabited

namespace Options

/-- Whether the text comes from standard input. -/
def isStdin (o : Options) : Bool := o.file == "-"

/-- Why the arguments ask for no run. -/
inductive Stop
  | invalidValue
  | unknownArgument
  | repeated
  | valueForFlag
  | help
  | version
  deriving DecidableEq, Repr, Inhabited

/-- The options that take a value. -/
inductive Setting
  | policy
  | config
  | format
  deriving DecidableEq, Repr

/-- The options that take no value. -/
inductive Flag
  | fix
  | listRules
  | help
  | version
  deriving DecidableEq, Repr

/-- An option by its name. -/
inductive Name
  | setting (s : Setting)
  | flag (f : Flag)
  deriving DecidableEq, Repr

/-- The option with a long name. -/
def ofLong? (name : String) : Option Name :=
  match name with
  | "policy" => some (.setting .policy)
  | "config" => some (.setting .config)
  | "format" => some (.setting .format)
  | "fix" => some (.flag .fix)
  | "list-rules" => some (.flag .listRules)
  | "help" => some (.flag .help)
  | "version" => some (.flag .version)
  | _ => none

/-- The option with a short name. -/
def ofShort? (name : Char) : Option Name :=
  match name with
  | 'p' => some (.setting .policy)
  | 'c' => some (.setting .config)
  | 'h' => some (.flag .help)
  | 'V' => some (.flag .version)
  | _ => none

/-- An argument by its looks: the mark after which no argument is an option, a long option, with a
value if one follows an equals sign, a short option, with what follows it, or anything else. -/
inductive Argument
  | endOfOptions
  | long (name : String) (value : Option String)
  | short (name : Char) (rest : List Char)
  | plain (text : String)
  deriving DecidableEq, Repr

/-- What an argument looks like. A lone hyphen is not an option. -/
def Argument.ofString (arg : String) : Argument :=
  match arg.toList with
  | ['-', '-'] => .endOfOptions
  | '-' :: '-' :: cs =>
      .long (String.ofList (cs.takeWhile (· != '=')))
        ((cs.dropWhile (· != '=')).tail?.map String.ofList)
  | '-' :: c :: cs => .short c cs
  | _ => .plain arg

/-- What has been read of the arguments: what is settled, and the option that is not settled yet,
with its value if it has got one. -/
structure Draft where
  file : Option String := none
  policy : Option Policy := none
  config : Option String := none
  format : Option Format := none
  fix : Bool := false
  listRules : Bool := false
  pending : Option (Setting × Option String) := none
  deriving DecidableEq, Repr, Inhabited

namespace Draft

/-- Whether an option is settled. -/
def has (d : Draft) : Setting → Bool
  | .policy => d.policy.isSome
  | .config => d.config.isSome
  | .format => d.format.isSome

/-- Settles an option with a value. -/
def put (d : Draft) (s : Setting) (value : String) : Except Stop Draft :=
  if d.has s then .error .repeated
  else
    match s with
    | .policy =>
        match Policy.ofName? value with
        | some p => .ok { d with policy := some p }
        | none => .error .invalidValue
    | .config =>
        if value.isEmpty then .error .invalidValue else .ok { d with config := some value }
    | .format =>
        match Format.ofName? value with
        | some f => .ok { d with format := some f }
        | none => .error .invalidValue

/-- Settles the option that waits for it, if one does. -/
def settle (d : Draft) : Except Stop Draft :=
  match d.pending with
  | none => .ok d
  | some (_, none) => .error .invalidValue
  | some (s, some value) => { d with pending := none }.put s value

/-- Takes an option that needs a value, with the value if it is in the same argument. -/
def takeSetting (d : Draft) (s : Setting) (value : Option String) : Except Stop Draft :=
  d.settle.bind fun d =>
    match value with
    | some v => d.put s v
    | none => .ok { d with pending := some (s, none) }

/-- Takes an option that needs no value. -/
def takeFlag (d : Draft) (f : Flag) : Except Stop Draft :=
  d.settle.bind fun d =>
    match f with
    | .fix => if d.fix then .error .repeated else .ok { d with fix := true }
    | .listRules => if d.listRules then .error .repeated else .ok { d with listRules := true }
    | .help => .error .help
    | .version => .error .version

/-- Takes a file name. -/
def takeFile (d : Draft) (name : String) : Except Stop Draft :=
  if d.file.isSome then .error .unknownArgument
  else d.settle.map fun d => { d with file := some name }

/-- The value that follows a short option in the same argument, less an equals sign. -/
def attached : List Char → Option String
  | [] => none
  | '=' :: cs => some (String.ofList cs)
  | cs => some (String.ofList cs)

/-- Takes an argument that may be an option. -/
def take (d : Draft) : Argument → Except Stop Draft
  | .endOfOptions => .ok d
  | .long name value =>
      match ofLong? name with
      | none => .error .unknownArgument
      | some (.setting s) => d.takeSetting s value
      | some (.flag f) => if value.isSome then .error .valueForFlag else d.takeFlag f
  | .short name rest =>
      match ofShort? name with
      | none => .error .unknownArgument
      | some (.setting s) => d.takeSetting s (attached rest)
      | some (.flag f) => d.takeFlag f
  | .plain text =>
      match d.pending with
      | some (s, none) => .ok { d with pending := some (s, some text) }
      | _ => d.takeFile text

/-- Takes arguments of which none is an option. -/
def takeFiles (d : Draft) : List String → Except Stop Draft
  | [] => .ok d
  | arg :: args => (d.takeFile arg).bind fun d => d.takeFiles args

/-- Takes arguments. -/
def takeAll (d : Draft) : List String → Except Stop Draft
  | [] => .ok d
  | arg :: args =>
      match Argument.ofString arg with
      | .endOfOptions => d.takeFiles args
      | argument => (d.take argument).bind fun d => d.takeAll args

/-- The options of a draft in which nothing is pending, with the defaults put in. -/
def finish (d : Draft) : Options where
  file := d.file.getD "-"
  policy := d.policy
  config := d.config
  fix := d.fix
  listRules := d.listRules
  format := d.format.getD .human

end Draft

/-- What the arguments ask for. -/
def ofArguments (args : List String) : Except Stop Options :=
  (Draft.takeAll {} args).bind fun d => d.settle.map Draft.finish

end Options

end ParenGap
