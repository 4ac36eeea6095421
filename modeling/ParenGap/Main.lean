import ParenGap.Command
import ParenGap.Json.Reader
import ParenGap.Tree.Store

/-!
# The command line

The program acts on the machine that it runs on. The trees of the texts that it checks are made by a
JavaScript parser beforehand; they are read from the store that the environment variable
`PARENGAP_TREES` names.
-/

set_option autoImplicit false

namespace ParenGap.Machine

/-- What an error of the machine is called in a run. -/
def accessError : IO.Error → AccessError
  | .noFileOrDirectory .. => .notFound
  | .permissionDenied _ 13 _ => .permissionDenied
  | .inappropriateType _ code _ =>
      if code == 21 || code + 21 == 0 then .isDirectory else .notDirectory
  | error => .other (toString error)

/-- The outcome of an action, its errors as values. -/
def guarded {α : Type} (action : IO α) : IO (Except AccessError α) := do
  match ← action.toBaseIO with
  | .ok a => return .ok a
  | .error e => return .error (accessError e)

/-- The operations of a run on this machine. -/
def host : Host IO where
  readFile path := guarded (IO.FS.readBinFile path)
  readInput := guarded (do (← IO.getStdin).readBinToEnd)
  writeFile path text := guarded (IO.FS.writeFile path text)
  print text := do (← IO.getStdout).putStr text
  warn text := do (← IO.getStderr).putStr text

/-- The parser that knows the trees of the store, if there is one. -/
def parser : IO Parser := do
  match ← IO.getEnv "PARENGAP_TREES" with
  | none => return fun _ => none
  | some path =>
      let text ← IO.FS.readFile path
      match Json.read text.toList with
      | .ok store => return TreeStore.parser store
      | .error e => throw (IO.userError (path ++ ": " ++ e.message))

end ParenGap.Machine

/-- Runs the command with the given arguments. -/
def main (args : List String) : IO UInt32 := do
  let status ← ParenGap.Command.run ParenGap.Machine.host (← ParenGap.Machine.parser) args
  return status.toUInt32
