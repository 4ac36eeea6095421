import ParenGap.Config
import ParenGap.Lint
import ParenGap.Options
import ParenGap.Report

/-!
# A run of the command

A run reads the configuration and then the text, without the white space at its end. It mends the
text if that is asked for, checks what it then has, and reports what it finds. Its exit status is
`0` if nothing is found, `1` if something is or the run fails, and `2` if the arguments ask for no
run.
-/

set_option autoImplicit false

namespace ParenGap

/-! ## The host of a run

A run reads files and standard input, writes files, and writes to standard output and standard
error. A host gives these operations in some monad: the real one acts on the machine, and a world
(see `ParenGap.Command.World`) is a model of it that can be reasoned about.
-/

/-- Why a file cannot be read or written. What is not known by name is told in the machine's
words. -/
inductive AccessError
  | notFound
  | permissionDenied
  | notDirectory
  | isDirectory
  | notUtf8
  | other (reason : String)
  deriving DecidableEq, Repr, Inhabited

/-- What is said of an access error. -/
def AccessError.message : AccessError → String
  | .notFound => "No such file or directory (os error 2)"
  | .permissionDenied => "Permission denied (os error 13)"
  | .notDirectory => "Not a directory (os error 20)"
  | .isDirectory => "Is a directory (os error 21)"
  | .notUtf8 => "stream did not contain valid UTF-8"
  | .other reason => reason

/-- The operations that a run needs: to read a file or all of standard input, to put a text in the
place of what a file holds, and to write to standard output (`print`) or standard error (`warn`). -/
structure Host (m : Type → Type) where
  readFile : String → m (Except AccessError ByteArray)
  readInput : m (Except AccessError ByteArray)
  writeFile : String → String → m (Except AccessError Unit)
  print : String → m Unit
  warn : String → m Unit

/-- The text that bytes write in UTF-8. -/
def decodeUtf8 (bytes : ByteArray) : Except AccessError String :=
  match String.fromUTF8? bytes with
  | some text => .ok text
  | none => .error .notUtf8

/-! ## Runs

The parser is handed in. A text with a syntax error is not checked.
-/

namespace Command

/-- Why a run fails: the parser gives up on the text or finds a syntax error in it, the text or
another file cannot be read, a file cannot be written, the configuration file holds no
configuration, or the tree does not lie in the text. -/
inductive Failure
  | unparsed
  | syntaxErrors (file : String)
  | input (error : AccessError)
  | access (path : String) (error : AccessError)
  | config (path : String) (error : Config.ReadError)
  | outsideText
  deriving DecidableEq, Repr, Inhabited

namespace Failure

/-- What is said of a failure. -/
def message : Failure → String
  | .unparsed => "Failed to parse code"
  | .syntaxErrors file => "Found syntax error(s) in " ++ file
  | .input error => "Cannot read input: " ++ error.message
  | .access path error => "Cannot access " ++ path ++ ": " ++ error.message
  | .config path error => "Invalid configuration in " ++ path ++ ": " ++ error.message
  | .outsideText => "The syntax tree does not lie in the text"

/-- What is written to standard error of a failure. -/
def report : Failure → String
  | .syntaxErrors file =>
      message (.syntaxErrors file) ++ ".\n" ++
        "Ensure your code parses before running the linter.\n" ++
        "To prevent false positives, the linter will not check code with syntax errors.\n"
  | failure => "Error: " ++ failure.message ++ "\n"

/-- The exit status of a failed run. -/
def status : Failure → Nat
  | .outsideText => 101
  | _ => 1

end Failure

/-- An answer, or a failure if there is none because the tree does not lie in the text. -/
def orOutside {α : Type} : Option α → Except Failure α
  | some a => .ok a
  | none => .error .outsideText

/-- The source made of a text, if it has no syntax error. -/
def parseChecked (parser : Parser) (file : String) (code : List Char) : Except Failure Source :=
  match parser code with
  | none => .error .unparsed
  | some tree =>
      (orOutside (Source.ofTree? file code tree)).bind fun source =>
        if tree.hasError then .error (.syntaxErrors file) else .ok source

/-- A text, mended under a policy. -/
def fixCode (parser : Parser) (file : String) (policy : Policy) (code : List Char) :
    Except Failure (List Char) :=
  (parseChecked parser file code).bind fun source => orOutside (source.fixed? policy)

/-- The policy of a run: that of the options, else that of the configuration. -/
def effectivePolicy (options : Options) (config : Config) : Policy :=
  options.policy.getD config.policy

/-- The report on what is found, in the form that is asked for. -/
def reportText (options : Options) (source : Source) (findings : Findings) :
    Except Failure String :=
  match options.format with
  | .human => orOutside (Report.plain? source findings)
  | .json => orOutside ((Report.json? source.lines findings.diagnostics).map String.ofList)

/-- Whether the report goes to standard output. It goes to standard error if it is for a reader, or
if the mended text goes to standard output. -/
def reportsToOutput (options : Options) : Bool :=
  options.format == .json && !(options.fix && options.isStdin)

section Steps

variable {m : Type → Type} [Monad m] (host : Host m)

/-- The configuration in a file. -/
def loadConfig (path : String) : ExceptT Failure m Config := do
  match (← host.readFile path).bind decodeUtf8 with
  | .error error => throw (.access path error)
  | .ok text =>
      match Config.read text.toList with
      | .error error => throw (.config path error)
      | .ok config => return config

/-- The text to check, without the white space at its end. -/
def readCode (options : Options) : ExceptT Failure m (List Char) := do
  let bytes ← if options.isStdin then host.readInput else host.readFile options.file
  match bytes.bind decodeUtf8 with
  | .error error => throw (.input error)
  | .ok text => return Text.trimEnd text.toList

/-- Mends the text: the result goes to standard output if the text came from standard input, and
else to its file, if it differs. -/
def mend (parser : Parser) (options : Options) (policy : Policy) (code : List Char) :
    ExceptT Failure m (List Char) := do
  let fixed ← fixCode parser options.file policy code
  if options.isStdin then
    host.print (String.ofList fixed)
  else if fixed != code then
    match ← host.writeFile options.file (String.ofList fixed) with
    | .error error => throw (.access options.file error)
    | .ok () => pure ()
  return fixed

/-- Checks the text and reports what is found. -/
def checkAndReport (parser : Parser) (options : Options) (policy : Policy) (code : List Char) :
    ExceptT Failure m Nat := do
  let source ← parseChecked parser options.file code
  let findings ← orOutside (source.check? policy)
  let report ← reportText options source findings
  if reportsToOutput options then host.print report else host.warn report
  return if findings.isEmpty then 0 else 1

/-- A run with the given options. -/
def execute (parser : Parser) (options : Options) : ExceptT Failure m Nat := do
  let config ←
    match options.config with
    | some path => loadConfig host path
    | none => pure Config.default
  let policy := effectivePolicy options config
  if options.listRules then
    host.print (Report.plainRules Rule.all)
    return 0
  let code ← readCode host options
  let code ← if options.fix then mend host parser options policy code else pure code
  checkAndReport host parser options policy code

end Steps

/-- The name of the program and its version. -/
def versionText : String := "callspace 0.0.0-alpha.1\n"

/-- What is printed if help is asked for. The wording is the argument parser's; the text only stands
for it, and nothing depends on what it says. -/
def helpText : String :=
  "Checks the spacing between callees and the parentheses of their argument lists in JavaScript\n" ++
  "code\n\n" ++
  "Usage: callspace [OPTIONS] [FILE]\n\n" ++
  "Options:\n" ++
  "  -p, --policy <POLICY>  Spacing policy, never or always\n" ++
  "  -c, --config <CONFIG>  JSON configuration file\n" ++
  "      --fix              Fix violations\n" ++
  "      --format <FORMAT>  Output format for diagnostics, human or json\n" ++
  "      --list-rules       List the available rules and exit\n" ++
  "  -h, --help             Print help\n" ++
  "  -V, --version          Print version\n"

/-- What is written to standard error when the arguments ask for no run. The wording is the argument
parser's, which also names the argument that is wrong; the texts only stand for it, and nothing
depends on what they say. -/
def usageText : Options.Stop → String
  | .invalidValue => "error: invalid or missing value for an option\n"
  | .unknownArgument => "error: unexpected argument\n"
  | .repeated => "error: an option cannot be used multiple times\n"
  | .valueForFlag => "error: unexpected value for an option\n"
  | .help => ""
  | .version => ""

/-- A run of the command; the answer is its exit status. -/
def run {m : Type → Type} [Monad m] (host : Host m) (parser : Parser) (args : List String) :
    m Nat := do
  match Options.ofArguments args with
  | .error .help => host.print helpText; return 0
  | .error .version => host.print versionText; return 0
  | .error stop => host.warn (usageText stop); return 2
  | .ok options =>
      match ← (execute host parser options).run with
      | .ok status => return status
      | .error failure => host.warn failure.report; return failure.status

end Command

end ParenGap
