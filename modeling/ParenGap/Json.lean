/-!
# JSON values and how they are written

JSON is read into values (see `ParenGap.Json.Reader`), and values are written over several lines.
-/

set_option autoImplicit false

namespace ParenGap

/-! ## Values

A JSON value as it is written: an object is a list of members in their order, repeated keys
included, and a number is kept in the digits that write it.
-/

/-- A JSON value. A number is kept as it is written, and an object has its members in order. -/
inductive Json
  | null
  | bool (value : Bool)
  | number (literal : List Char)
  | string (value : String)
  | array (items : List Json)
  | object (members : List (String × Json))
  deriving Repr, Inhabited

namespace Json

/-- A natural number in decimal. -/
def ofNat (n : Nat) : Json := .number (Nat.toDigits 10 n)

/-- The number that decimal digits write. -/
def decimal (digits : List Char) : Nat :=
  digits.foldl (fun n d => n * 10 + (d.toNat - '0'.toNat)) 0

/-- The natural number that a value is, if it is written in digits alone. -/
def toNat? : Json → Option Nat
  | .number literal =>
      if !literal.isEmpty && literal.all Char.isDigit then some (decimal literal) else none
  | _ => none

/-- The string that a value is. -/
def toString? : Json → Option String
  | .string s => some s
  | _ => none

/-- The truth value that a value is. -/
def toBool? : Json → Option Bool
  | .bool b => some b
  | _ => none

/-- The items of an array. -/
def toItems? : Json → Option (List Json)
  | .array items => some items
  | _ => none

/-- The members of an object. -/
def toMembers? : Json → Option (List (String × Json))
  | .object members => some members
  | _ => none

/-- The value of the first member of an object with the given key. -/
def member? (v : Json) (key : String) : Option Json :=
  v.toMembers?.bind fun members => members.lookup key

end Json

end ParenGap

namespace ParenGap.Json

/-! ## Writing JSON

Values are written over several lines, each level indented by two spaces. An empty array or object
takes no line of its own. Characters outside of ASCII are written as they are.
-/

/-- A hexadecimal digit. -/
def hexDigit (n : Nat) : Char :=
  if n < 10 then Char.ofNat ('0'.toNat + n) else Char.ofNat ('a'.toNat + (n - 10))

/-- A character as it is written in a string. -/
def writeChar (c : Char) : List Char :=
  if c == '"' then ['\\', '"']
  else if c == '\\' then ['\\', '\\']
  else if c == '\x08' then ['\\', 'b']
  else if c == '\x0c' then ['\\', 'f']
  else if c == '\n' then ['\\', 'n']
  else if c == '\r' then ['\\', 'r']
  else if c == '\t' then ['\\', 't']
  else if c.toNat < 0x20 then
    ['\\', 'u', '0', '0', hexDigit (c.toNat / 16), hexDigit (c.toNat % 16)]
  else [c]

/-- A string in its quotes. -/
def writeString (s : String) : List Char := '"' :: s.toList.flatMap writeChar ++ ['"']

/-- A new line, indented. -/
def newline (level : Nat) : List Char := '\n' :: List.replicate (2 * level) ' '

mutual

/-- A value written at a level of indentation. -/
def write (level : Nat) : Json → List Char
  | .null => ['n', 'u', 'l', 'l']
  | .bool true => ['t', 'r', 'u', 'e']
  | .bool false => ['f', 'a', 'l', 's', 'e']
  | .number literal => literal
  | .string s => writeString s
  | .array [] => ['[', ']']
  | .array (v :: vs) =>
      '[' :: newline (level + 1) ++ write (level + 1) v ++ writeItems (level + 1) vs ++
        newline level ++ [']']
  | .object [] => ['\x7b', '\x7d']
  | .object ((k, v) :: ms) =>
      '\x7b' :: newline (level + 1) ++ writeString k ++ [':', ' '] ++ write (level + 1) v ++
        writeMembers (level + 1) ms ++ newline level ++ ['\x7d']

/-- The items of an array after the first one. -/
def writeItems (level : Nat) : List Json → List Char
  | [] => []
  | v :: vs => ',' :: newline level ++ write level v ++ writeItems level vs

/-- The members of an object after the first one. -/
def writeMembers (level : Nat) : List (String × Json) → List Char
  | [] => []
  | (k, v) :: ms =>
      ',' :: newline level ++ writeString k ++ [':', ' '] ++ write level v ++
        writeMembers level ms

end

end ParenGap.Json
