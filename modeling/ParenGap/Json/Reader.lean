import ParenGap.Json
import ParenGap.Text

/-!
# Reading JSON

A JSON text is read from its front to its end. What is not JSON is refused with a problem and the
place where it shows, and so is a number that is too large for a double.
-/

set_option autoImplicit false

namespace ParenGap.Json

/-! ## What can be wrong with JSON text

Each problem has its wording, and falls under one of two heads: the text ends too early, or it goes
on in a way that no JSON value does.
-/

/-- Why a text is not JSON. The text ends in an array, an object, a string, or where a value should
stand; or it goes on with what may not stand there: after a key or an item, in a word, a number or
an escape, or behind the value. -/
inductive Problem
  | endInArray
  | endInObject
  | endInString
  | endInValue
  | colonMissing
  | arrayDelimiterMissing
  | objectDelimiterMissing
  | wordMisspelt
  | valueMissing
  | invalidEscape
  | invalidNumber
  | numberOutOfRange
  | controlCharacter
  | keyNotString
  | loneSurrogate
  | trailingComma
  | trailingCharacters
  | surrogateUnfinished
  | tooDeep
  deriving DecidableEq, Repr, Inhabited

namespace Problem

/-- Whether the text ends too early. -/
def isEnd : Problem → Bool
  | .endInArray | .endInObject | .endInString | .endInValue => true
  | _ => false

/-- What is said of a problem. -/
def message : Problem → String
  | .endInArray => "EOF while parsing a list"
  | .endInObject => "EOF while parsing an object"
  | .endInString => "EOF while parsing a string"
  | .endInValue => "EOF while parsing a value"
  | .colonMissing => "expected `:`"
  | .arrayDelimiterMissing => "expected `,` or `]`"
  | .objectDelimiterMissing => "expected `,` or `\x7d`"
  | .wordMisspelt => "expected ident"
  | .valueMissing => "expected value"
  | .invalidEscape => "invalid escape"
  | .invalidNumber => "invalid number"
  | .numberOutOfRange => "number out of range"
  | .controlCharacter =>
      "control character (\\u0000-\\u001F) found while parsing a string"
  | .keyNotString => "key must be a string"
  | .loneSurrogate => "lone leading surrogate in hex escape"
  | .trailingComma => "trailing comma"
  | .trailingCharacters => "trailing characters"
  | .surrogateUnfinished => "unexpected end of hex escape"
  | .tooDeep => "recursion limit exceeded"

end Problem

/-- A problem and the place where it shows, as a line counted from `1` and a number of bytes in that
line. -/
structure ReadError where
  problem : Problem
  line : Nat
  column : Nat
  deriving DecidableEq, Repr, Inhabited

/-- What is said of a problem and its place. -/
def ReadError.message (e : ReadError) : String :=
  e.problem.message ++ " at line " ++ toString e.line ++ " column " ++ toString e.column

end ParenGap.Json

namespace ParenGap.Json.Magnitude

/-! ## The range of a double

Whether a decimal number is too large for a double. The number is given by a significand and a power
of ten; both are rounded to 53 bits, to the nearest with ties to the even neighbour, before they are
multiplied. The product is too large if it rounds past the largest double.
-/

/-- A natural number rounded to 53 significant bits, a tie to the even neighbour. -/
def round53 (n : Nat) : Nat :=
  if n < Nat.pow 2 53 then n
  else
    let unit := Nat.pow 2 (n.log2 - 52)
    let quotient := n / unit
    let remainder := n % unit
    if unit < 2 * remainder || (2 * remainder == unit && quotient % 2 == 1) then
      (quotient + 1) * unit
    else
      quotient * unit

/-- The least number that rounds past the largest double: half a unit above it. -/
def overflow : Nat := Nat.pow 2 1024 - Nat.pow 2 970

/-- The largest power of ten that is a double. -/
def largestPower : Nat := 308

/-- Whether a significand times a power of ten is too large for a double. -/
def exceeds (significand : Nat) (power : Int) : Bool :=
  significand != 0 && decide (0 ≤ power) &&
    (decide (largestPower < power) ||
      decide (overflow ≤ round53 significand * round53 (Nat.pow 10 power.toNat)))

end ParenGap.Json.Magnitude

/-! ## The reader

The reader takes a value off the front of a text and answers with what is left. Each step answers
with a text that is shorter than the one it was given, which is why reading ends. Arrays and objects
may be nested 127 deep.

A step that fails tells where: by the text that was left and by the number of bytes that had been
looked at beyond.
-/

namespace ParenGap.Json.Reader

/-- A failure to read on: what is wrong, the text that was left, and how many bytes of it had been
looked at. -/
structure Slip where
  problem : Problem
  rest : List Char
  beyond : Nat
  deriving Repr

/-- What is left of a text of which something has been taken. -/
abbrev Shorter (cs : List Char) := { r : List Char // r.length < cs.length }

/-- What is left of a text of which nothing need have been taken. -/
abbrev NotLonger (cs : List Char) := { r : List Char // r.length ≤ cs.length }

/-- White space between the parts of a JSON text. -/
def isSpace (c : Char) : Bool := c == ' ' || c == '\n' || c == '\t' || c == '\r'

/-- A text without the white space at its front. -/
def skipSpace (cs : List Char) : List Char := cs.dropWhile isSpace

theorem length_skipSpace_le (cs : List Char) : (skipSpace cs).length ≤ cs.length :=
  (List.dropWhile_sublist isSpace).length_le

/-! ### Words -/

/-- Takes the given characters off the front of a text. -/
def word : List Char → (cs : List Char) → Except Slip (NotLonger cs)
  | [], cs => .ok ⟨cs, Nat.le_refl _⟩
  | _ :: _, [] => .error ⟨.endInValue, [], 0⟩
  | e :: es, c :: cs =>
      if c == e then
        (word es cs).map fun r => ⟨r.val, Nat.le_succ_of_le r.property⟩
      else
        .error ⟨.wordMisspelt, c :: cs, 1⟩

/-! ### Numbers -/

/-- The digits at the front of a text. -/
def digits (cs : List Char) : List Char := cs.takeWhile Char.isDigit

/-- A text without the digits at its front. -/
def afterDigits (cs : List Char) : NotLonger cs :=
  ⟨cs.dropWhile Char.isDigit, (List.dropWhile_sublist Char.isDigit).length_le⟩

/-- The value of a digit. -/
def digitValue (c : Char) : Nat := c.toNat - '0'.toNat

/-- Appends digits to a number as long as it stays within the limit; the digits left over begin with
the one that would lead beyond it. -/
def absorb (limit : Nat) : Nat → List Char → Nat × List Char
  | n, [] => (n, [])
  | n, d :: ds =>
      if n * 10 + digitValue d ≤ limit then absorb limit (n * 10 + digitValue d) ds
      else (n, d :: ds)

/-- Largest significand that is kept exactly. -/
def significandLimit : Nat := Nat.pow 2 64 - 1

/-- Largest exponent that is kept exactly. -/
def exponentLimit : Nat := Nat.pow 2 31 - 1

/-- Accepts a number, unless it is too large. -/
def accept (significand : Nat) (power : Int) (cs : List Char) : Except Slip (NotLonger cs) :=
  if Magnitude.exceeds significand power then .error ⟨.numberOutOfRange, cs, 0⟩
  else .ok ⟨cs, Nat.le_refl _⟩

/-- Takes the digits of an exponent off the front of a text. -/
def exponentDigits (significand : Nat) (power : Int) (negative : Bool) (cs : List Char) :
    Except Slip (NotLonger cs) :=
  match digits cs with
  | [] =>
      match cs with
      | [] => .error ⟨.endInValue, [], 0⟩
      | c :: r => .error ⟨.invalidNumber, c :: r, 1⟩
  | d :: ds =>
      let exponent := absorb exponentLimit 0 (d :: ds)
      match exponent.2 with
      | [] =>
          let power := if negative then power - exponent.1 else power + exponent.1
          (accept significand power (afterDigits cs).val).map fun r =>
            ⟨r.val, Nat.le_trans r.property (afterDigits cs).property⟩
      | left =>
          if significand != 0 && !negative then
            .error ⟨.numberOutOfRange, left ++ (afterDigits cs).val, 1⟩
          else
            .ok (afterDigits cs)

/-- Takes an exponent off the front of a text, if one stands there. -/
def exponent (significand : Nat) (power : Int) (cs : List Char) : Except Slip (NotLonger cs) :=
  match cs with
  | [] => accept significand power []
  | c :: r =>
      if c == 'e' || c == 'E' then
        match r with
        | [] => .error ⟨.endInValue, [], 0⟩
        | s :: t =>
            if s == '+' || s == '-' then
              (exponentDigits significand power (s == '-') t).map fun r =>
                ⟨r.val, by have := r.property; simp only [List.length_cons]; omega⟩
            else
              (exponentDigits significand power false (s :: t)).map fun r =>
                ⟨r.val, Nat.le_succ_of_le r.property⟩
      else
        accept significand power (c :: r)

/-- Takes a fraction and an exponent off the front of a text, as far as they stand there. -/
def fraction (significand : Nat) (power : Int) (cs : List Char) : Except Slip (NotLonger cs) :=
  match cs with
  | [] => exponent significand power []
  | c :: r =>
      if c == '.' then
        match digits r with
        | [] =>
            match r with
            | [] => .error ⟨.endInValue, [], 1⟩
            | x :: t => .error ⟨.invalidNumber, x :: t, 1⟩
        | d :: ds =>
            let absorbed := absorb significandLimit significand (d :: ds)
            let places := (d :: ds).length - absorbed.2.length
            (exponent absorbed.1 (power - places) (afterDigits r).val).map fun t =>
              ⟨t.val, Nat.le_succ_of_le (Nat.le_trans t.property (afterDigits r).property)⟩
      else
        exponent significand power (c :: r)

/-- Takes a number without its sign off the front of a text. -/
def unsigned (cs : List Char) : Except Slip (Shorter cs) :=
  match cs with
  | [] => .error ⟨.endInValue, [], 0⟩
  | c :: r =>
      if c == '0' then
        if (digits r).isEmpty then
          (fraction 0 0 r).map fun t => ⟨t.val, Nat.lt_succ_of_le t.property⟩
        else
          .error ⟨.invalidNumber, r, 1⟩
      else if c.isDigit then
        let absorbed := absorb significandLimit (digitValue c) (digits r)
        (fraction absorbed.1 absorbed.2.length (afterDigits r).val).map fun t =>
          ⟨t.val, Nat.lt_succ_of_le (Nat.le_trans t.property (afterDigits r).property)⟩
      else
        .error ⟨.invalidNumber, c :: r, 1⟩

/-- Takes a number off the front of a text. -/
def number (cs : List Char) : Except Slip (List Char × Shorter cs) :=
  match cs with
  | [] => .error ⟨.endInValue, [], 0⟩
  | c :: r =>
      if c == '-' then
        (unsigned r).map fun t =>
          ((c :: r).take ((c :: r).length - t.val.length),
            ⟨t.val, Nat.lt_succ_of_lt t.property⟩)
      else
        (unsigned (c :: r)).map fun t =>
          ((c :: r).take ((c :: r).length - t.val.length), t)

/-! ### Strings -/

/-- The value of a hexadecimal digit. -/
def hexValue? (c : Char) : Option Nat :=
  if '0' ≤ c && c ≤ '9' then some (c.toNat - '0'.toNat)
  else if 'a' ≤ c && c ≤ 'f' then some (c.toNat - 'a'.toNat + 10)
  else if 'A' ≤ c && c ≤ 'F' then some (c.toNat - 'A'.toNat + 10)
  else none

/-- The number that four hexadecimal digits write. -/
def hexValue4? (a b c d : Char) : Option Nat := do
  return ((← hexValue? a) * 16 + (← hexValue? b)) * 256 + (← hexValue? c) * 16 + (← hexValue? d)

/-- Takes four hexadecimal digits off the front of a text. Four bytes are looked at. -/
def hex4 (cs : List Char) : Except Slip (Nat × Shorter cs) :=
  let slip : Slip :=
    if Text.byteLength cs < 4 then ⟨.endInString, [], 0⟩ else ⟨.invalidEscape, cs, 4⟩
  match cs with
  | a :: b :: c :: d :: r =>
      match hexValue4? a b c d with
      | some n => .ok (n, ⟨r, by simp only [List.length_cons]; omega⟩)
      | none => .error slip
  | _ => .error slip

/-- The first half of a surrogate pair. -/
def isLeading (n : Nat) : Bool := 0xD800 ≤ n && n ≤ 0xDBFF

/-- The second half of a surrogate pair. -/
def isTrailing (n : Nat) : Bool := 0xDC00 ≤ n && n ≤ 0xDFFF

/-- The character that a surrogate pair stands for. -/
def pairValue (leading trailing : Nat) : Char :=
  Char.ofNat ((leading - 0xD800) * 0x400 + (trailing - 0xDC00) + 0x10000)

/-- Takes the escape of the second half of a surrogate pair off the front of a text. -/
def trailingHalf (leading : Nat) (cs : List Char) : Except Slip (Char × Shorter cs) :=
  match cs with
  | [] => .error ⟨.endInString, [], 0⟩
  | '\\' :: [] => .error ⟨.endInString, [], 0⟩
  | '\\' :: 'u' :: r =>
      match hex4 r with
      | .error slip => .error slip
      | .ok (n, t) =>
          if isTrailing n then
            .ok (pairValue leading n,
              ⟨t.val, by have := t.property; simp only [List.length_cons]; omega⟩)
          else
            .error ⟨.loneSurrogate, t.val, 0⟩
  | '\\' :: r => .error ⟨.surrogateUnfinished, r, 1⟩
  | c :: r => .error ⟨.surrogateUnfinished, c :: r, 1⟩

/-- Takes off the front of a text what follows `\u`. -/
def unicodeEscape (cs : List Char) : Except Slip (Char × Shorter cs) :=
  match hex4 cs with
  | .error slip => .error slip
  | .ok (n, t) =>
      if isTrailing n then .error ⟨.loneSurrogate, t.val, 0⟩
      else if isLeading n then
        (trailingHalf n t.val).map fun p =>
          (p.1, ⟨p.2.val, Nat.lt_trans p.2.property t.property⟩)
      else .ok (Char.ofNat n, t)

/-- The character that an escape of one character stands for. -/
def shortEscape? : Char → Option Char
  | '"' => some '"'
  | '\\' => some '\\'
  | '/' => some '/'
  | 'b' => some '\x08'
  | 'f' => some '\x0c'
  | 'n' => some '\n'
  | 'r' => some '\r'
  | 't' => some '\t'
  | _ => none

/-- Takes off the front of a text what follows a backslash. -/
def escape (cs : List Char) : Except Slip (Char × Shorter cs) :=
  match cs with
  | [] => .error ⟨.endInString, [], 0⟩
  | c :: r =>
      if c == 'u' then
        (unicodeEscape r).map fun p => (p.1, ⟨p.2.val, Nat.lt_succ_of_lt p.2.property⟩)
      else
        match shortEscape? c with
        | some d => .ok (d, ⟨r, Nat.lt_succ_self _⟩)
        | none => .error ⟨.invalidEscape, c :: r, 1⟩

/-- Takes the characters of a string and its closing quote off the front of a text. -/
def stringBody (cs : List Char) : Except Slip (List Char × Shorter cs) :=
  match cs with
  | [] => .error ⟨.endInString, [], 0⟩
  | c :: r =>
      if c == '"' then .ok ([], ⟨r, Nat.lt_succ_self _⟩)
      else if c == '\\' then
        match escape r with
        | .error slip => .error slip
        | .ok (d, t) =>
            (stringBody t.val).map fun p =>
              (d :: p.1, ⟨p.2.val, by
                have h₁ := p.2.property
                have h₂ := t.property
                simp only [List.length_cons]
                omega⟩)
      else if c.toNat < 0x20 then .error ⟨.controlCharacter, c :: r, 1⟩
      else
        (stringBody r).map fun p => (c :: p.1, ⟨p.2.val, Nat.lt_succ_of_lt p.2.property⟩)
  termination_by cs.length
  decreasing_by
    · have := t.property
      simp only [List.length_cons]
      omega
    · simp

/-! ### Values -/

/-- Arrays and objects may be nested this deep. -/
def depthLimit : Nat := 127

/-- Takes the colon between a key and its value off the front of a text. -/
def colon (cs : List Char) : Except Slip (Shorter cs) :=
  match h : skipSpace cs with
  | [] => .error ⟨.endInObject, [], 1⟩
  | c :: r =>
      if c == ':' then
        .ok ⟨r, by
          have := length_skipSpace_le cs
          rw [h] at this
          exact this⟩
      else .error ⟨.colonMissing, c :: r, 1⟩

mutual

/-- Takes a value off the front of a text, in which arrays and objects may be nested `depth`
deep. -/
def value (depth : Nat) (cs : List Char) : Except Slip (Json × Shorter cs) :=
  match h : skipSpace cs with
  | [] => .error ⟨.endInValue, [], 1⟩
  | c :: r =>
      have hr : r.length < cs.length := by
        have := length_skipSpace_le cs
        rw [h] at this
        exact this
      if c == 'n' then
        (word ['u', 'l', 'l'] r).map fun t => (.null, ⟨t.val, Nat.lt_of_le_of_lt t.property hr⟩)
      else if c == 't' then
        (word ['r', 'u', 'e'] r).map fun t =>
          (.bool true, ⟨t.val, Nat.lt_of_le_of_lt t.property hr⟩)
      else if c == 'f' then
        (word ['a', 'l', 's', 'e'] r).map fun t =>
          (.bool false, ⟨t.val, Nat.lt_of_le_of_lt t.property hr⟩)
      else if c == '-' || c.isDigit then
        (number (c :: r)).map fun p =>
          (.number p.1, ⟨p.2.val, Nat.lt_of_lt_of_le p.2.property hr⟩)
      else if c == '"' then
        (stringBody r).map fun p =>
          (.string (String.ofList p.1), ⟨p.2.val, Nat.lt_trans p.2.property hr⟩)
      else if c == '[' then
        if depth = 0 then .error ⟨.tooDeep, c :: r, 1⟩
        else
          (items (depth - 1) true r).map fun p =>
            (.array p.1, ⟨p.2.val, Nat.lt_trans p.2.property hr⟩)
      else if c == '\x7b' then
        if depth = 0 then .error ⟨.tooDeep, c :: r, 1⟩
        else
          (members (depth - 1) true r).map fun p =>
            (.object p.1, ⟨p.2.val, Nat.lt_trans p.2.property hr⟩)
      else .error ⟨.valueMissing, c :: r, 1⟩
  termination_by (cs.length, 0)
  decreasing_by
    all_goals exact Prod.Lex.left _ _ hr

/-- Takes the items of an array and its closing bracket off the front of a text. All but the first
item follow a comma. -/
def items (depth : Nat) (first : Bool) (cs : List Char) :
    Except Slip (List Json × Shorter cs) :=
  match h : skipSpace cs with
  | [] => .error ⟨.endInArray, [], 1⟩
  | c :: r =>
      have hr : r.length < cs.length := by
        have := length_skipSpace_le cs
        rw [h] at this
        exact this
      if c == ']' then .ok ([], ⟨r, hr⟩)
      else if first then
        match value depth cs with
        | .error slip => .error slip
        | .ok (v, t) =>
            have ht : t.val.length < cs.length := t.property
            (items depth false t.val).map fun p =>
              (v :: p.1, ⟨p.2.val, Nat.lt_trans p.2.property ht⟩)
      else if c == ',' then
        match skipSpace r with
        | [] => .error ⟨.endInValue, [], 1⟩
        | d :: s =>
            if d == ']' then .error ⟨.trailingComma, d :: s, 1⟩
            else
              match value depth r with
              | .error slip => .error slip
              | .ok (v, t) =>
                  have ht : t.val.length < cs.length := Nat.lt_trans t.property hr
                  (items depth false t.val).map fun p =>
                    (v :: p.1, ⟨p.2.val, Nat.lt_trans p.2.property ht⟩)
      else .error ⟨.arrayDelimiterMissing, c :: r, 1⟩
  termination_by (cs.length, 1)
  decreasing_by
    · exact Prod.Lex.right _ (by omega)
    · exact Prod.Lex.left _ _ ht
    · exact Prod.Lex.left _ _ hr
    · exact Prod.Lex.left _ _ ht

/-- Takes the members of an object and its closing brace off the front of a text. All but the first
member follow a comma. -/
def members (depth : Nat) (first : Bool) (cs : List Char) :
    Except Slip (List (String × Json) × Shorter cs) :=
  match h : skipSpace cs with
  | [] => .error ⟨.endInObject, [], 1⟩
  | c :: r =>
      have hr : r.length < cs.length := by
        have := length_skipSpace_le cs
        rw [h] at this
        exact this
      if c == '\x7d' then .ok ([], ⟨r, hr⟩)
      else if first then
        if c == '"' then
          (member depth r).map fun p =>
            (p.1, ⟨p.2.val, Nat.lt_trans p.2.property hr⟩)
        else .error ⟨.keyNotString, c :: r, 1⟩
      else if c == ',' then
        match hs : skipSpace r with
        | [] => .error ⟨.endInValue, [], 1⟩
        | d :: s =>
            have hsr : s.length < cs.length := by
              have := length_skipSpace_le r
              rw [hs] at this
              simp only [List.length_cons] at this
              omega
            if d == '"' then
              (member depth s).map fun p =>
                (p.1, ⟨p.2.val, Nat.lt_trans p.2.property hsr⟩)
            else if d == '\x7d' then .error ⟨.trailingComma, d :: s, 1⟩
            else .error ⟨.keyNotString, d :: s, 1⟩
      else .error ⟨.objectDelimiterMissing, c :: r, 1⟩
  termination_by (cs.length, 1)
  decreasing_by
    · exact Prod.Lex.left _ _ hr
    · exact Prod.Lex.left _ _ hsr

/-- Takes a member, from behind the opening quote of its key, and the members after it off the front
of a text. -/
def member (depth : Nat) (cs : List Char) : Except Slip (List (String × Json) × Shorter cs) :=
  match stringBody cs with
  | .error slip => .error slip
  | .ok (key, afterKey) =>
      match colon afterKey.val with
      | .error slip => .error slip
      | .ok afterColon =>
          have h₁ : afterColon.val.length < cs.length :=
            Nat.lt_trans afterColon.property afterKey.property
          match value depth afterColon.val with
          | .error slip => .error slip
          | .ok (v, afterValue) =>
              have h₂ : afterValue.val.length < cs.length := Nat.lt_trans afterValue.property h₁
              (members depth false afterValue.val).map fun p =>
                ((String.ofList key, v) :: p.1, ⟨p.2.val, Nat.lt_trans p.2.property h₂⟩)
  termination_by (cs.length, 0)
  decreasing_by
    · exact Prod.Lex.left _ _ h₁
    · exact Prod.Lex.left _ _ h₂

end

/-! ### Places -/

/-- The line, counted from `1`, and the bytes of that line that come before an offset, counted on
from the given line and column. -/
def lineColumn : List Char → Nat → Nat × Nat → Nat × Nat
  | _, 0, at₀ => at₀
  | [], _ + 1, at₀ => at₀
  | c :: cs, n + 1, (line, column) =>
      if c == '\n' then lineColumn cs n (line + 1, 0)
      else if c.utf8Size ≤ n + 1 then
        lineColumn cs (n + 1 - c.utf8Size) (line, column + c.utf8Size)
      else (line, column + (n + 1))

/-- The error that a slip in a text is reported as. -/
def Slip.inText (slip : Slip) (text : List Char) : ReadError :=
  let length := Text.byteLength text
  let offset := min length (length - Text.byteLength slip.rest + slip.beyond)
  let place := lineColumn text offset (1, 0)
  ⟨slip.problem, place.1, place.2⟩

end ParenGap.Json.Reader

namespace ParenGap.Json

/-- Takes a value off the front of a text. -/
def readFirst (text : List Char) : Except ReadError (Json × List Char) :=
  match Reader.value Reader.depthLimit text with
  | .error slip => .error (slip.inText text)
  | .ok (v, rest) => .ok (v, rest.val)

/-- Accepts what is left of a text behind its value, if it is white space. -/
def readEnd (text rest : List Char) : Except ReadError Unit :=
  match Reader.skipSpace rest with
  | [] => .ok ()
  | c :: r => .error (Reader.Slip.inText ⟨.trailingCharacters, c :: r, 1⟩ text)

/-- The value that a text writes. -/
def read (text : List Char) : Except ReadError Json :=
  (readFirst text).bind fun p => (readEnd text p.2).map fun _ => p.1

end ParenGap.Json
