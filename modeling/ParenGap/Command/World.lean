import ParenGap.Command

/-!
# Worlds

A world models what a run can see and change: some files in one directory, standard input, and what
has been written to standard output and standard error. A file may be named by a path that stays in
the directory, such as `./a.js`.

Each file of the directory can be read. Whether it can be written is not part of a world, since no
run changes that: the host is given the files that refuse it (`World.Refusals`). All else that is
written arrives.
-/

set_option autoImplicit false

namespace ParenGap

/-- What a run can see and change: the files of the directory, with their content, standard input,
and what has been written to standard output and standard error. -/
structure World where
  files : List (String × ByteArray)
  input : ByteArray
  output : String := ""
  errors : String := ""

namespace World

/-- The parts of a path between its slashes. -/
def splitPath : List Char → List (List Char)
  | [] => [[]]
  | c :: cs =>
      if c == '/' then [] :: splitPath cs
      else
        match splitPath cs with
        | [] => [[c]]
        | part :: parts => (c :: part) :: parts

/-- Whether a part of a path stays in the directory that it is looked up in. -/
def staysPut (part : List Char) : Bool := part.isEmpty || part == ['.']

/-- What a path leads to: a file of the directory, or nothing that can be read or written. -/
inductive Target
  | file (name : String)
  | nothing (error : AccessError)
  deriving DecidableEq, Repr

/-- What a path leads to in a directory with the given files. -/
def resolve (names : List String) (path : String) : Target :=
  match path.toList with
  | [] => .nothing .notFound
  | first :: _ =>
      let parts := splitPath path.toList
      match parts.dropWhile staysPut with
      | [] => .nothing .isDirectory
      | name :: further =>
          if first == '/' then .nothing .notFound
          else if name == ['.', '.'] then
            .nothing (if further.all staysPut then .isDirectory else .notFound)
          else if names.contains (String.ofList name) then
            if further.isEmpty then .file (String.ofList name) else .nothing .notDirectory
          else .nothing .notFound

/-- The content of the file that a path leads to. -/
def read (w : World) (path : String) : Except AccessError ByteArray :=
  match resolve (w.files.map Prod.fst) path with
  | .nothing error => .error error
  | .file name =>
      match w.files.lookup name with
      | some bytes => .ok bytes
      | none => .error .notFound

/-- Which files of the directory cannot be opened for writing, because they are read-only for
instance, and why. Such a file stays as it is. -/
abbrev Refusals := String → Option AccessError

/-- Each file can be written. -/
def noRefusals : Refusals := fun _ => none

/-- The world with another content of the file that a path leads to, unless the file cannot be
opened for writing. -/
def write (w : World) (refusals : Refusals) (path : String) (text : String) :
    Except AccessError World :=
  match resolve (w.files.map Prod.fst) path with
  | .nothing error => .error error
  | .file name =>
      match refusals name with
      | some error => .error error
      | none =>
          .ok { w with
            files := w.files.map fun file => if file.1 == name then (name, text.toUTF8) else file }

/-- The operations of a run in a world. If nothing is said of refusals, then there are none. -/
def host (refusals : Refusals := noRefusals) : Host (StateM World) where
  readFile path := do return (← get).read path
  readInput := do return .ok (← get).input
  writeFile path text := do
    match (← get).write refusals path text with
    | .ok w => set w; return .ok ()
    | .error error => return .error error
  print text := modify fun w => { w with output := w.output ++ text }
  warn text := modify fun w => { w with errors := w.errors ++ text }

end World

end ParenGap
