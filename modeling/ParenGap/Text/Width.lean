import ParenGap.Text.Width.Table

/-!
# Display width

The number of terminal columns that a text takes. Most characters take a fixed number of columns on
their own (`charWidth`). Some take another number because of what stands after them: an emoji with
its selector, skin tone or joined neighbour is one picture, and a few scripts draw two letters as
one. A text is therefore scanned from its end to its start, and the scan remembers what kind of
thing begins just ahead of the character that it looks at.

`lineWidth` counts a tab as eight columns.
-/

set_option autoImplicit false

namespace ParenGap.Text.Width

/-- Columns of a character on its own. -/
def charWidth (n : Nat) : Nat :=
  if n ≤ 0xA0 then 1
  else if n == 0x17A4 then 2
  else if n == 0x17D8 then 3
  else if within zeroWidth n then 0
  else if within wide n then 2
  else 1

/-- Letters that may be drawn together with what stands before them: an Arabic alef after a lam;
with a joiner in between, a Hebrew lamed after an alef, a Buginese ya after its vowel sign i
(`vowelYa` is the two tied), a Tifinagh consonant after its joiner, and the Old Turkic letter i
after the letter op; a Lisu tone letter of the second kind, a Khmer letter below its neighbour, and
the Kirat Rai vowel signs e and ai. -/
inductive Ligature
  | alef
  | lamed
  | ya
  | vowelYa
  | tifinagh
  | tifinaghJoiner
  | lisuTone
  | orkhonI
  | coengLetter
  | kiratE
  | kiratAi
  deriving DecidableEq, Repr

/-- What begins just ahead of a character: nothing that matters to it, an emoji drawn as a picture,
a skin tone, a regional indicator (whether another one follows is told by `several`), a letter of a
ligature (whether a joiner stands in between is told by `joiner`), or a zero-width joiner and what
it joins: an emoji, the enclosing keycap, one regional indicator, an even number of them, or an odd
number from three on. -/
inductive Ahead
  | plain
  | emoji
  | modifier
  | indicator (several : Bool)
  | joined
  | joinedKeycap
  | joinedIndicator
  | joinedPairs
  | joinedOdd
  | ligature (letter : Ligature) (joiner : Bool)
  deriving DecidableEq, Repr

/-- The variation selectors U+FE0E and U+FE0F, which choose between text and picture. -/
inductive Selector
  | text
  | emoji
  deriving DecidableEq, Repr

/-- What the scan remembers: the thing ahead, and a variation selector in front of it. -/
structure Context where
  ahead : Ahead
  selector : Option Selector := none
  deriving DecidableEq, Repr

/-- Regional indicators. -/
def isIndicator (n : Nat) : Bool := 0x1F1E6 ≤ n && n ≤ 0x1F1FF

/-- Skin tones. -/
def isModifier (n : Nat) : Bool := 0x1F3FB ≤ n && n ≤ 0x1F3FF

/-- What a character begins when nothing ahead of it matters. -/
def begins (n : Nat) : Ahead :=
  if n ≤ 0xA0 then .plain
  else if within alef n then .ligature .alef false
  else if n == 0x5DC then .ligature .lamed false
  else if within coengLetter n then .ligature .coengLetter false
  else if n == 0x1A10 then .ligature .ya false
  else if within tifinaghConsonant n then .ligature .tifinagh false
  else if n == 0xA4FC || n == 0xA4FD then .ligature .lisuTone false
  else if n == 0x10C03 then .ligature .orkhonI false
  else if n == 0x16D67 then .ligature .kiratE false
  else if n == 0x16D68 then .ligature .kiratAi false
  else if isIndicator n then .indicator false
  else if isModifier n then .modifier
  else if within emojiPresentation n then .emoji
  else .plain

/-- The columns that a character adds before a letter of a ligature, and what then lies ahead. -/
def beforeLetter (n : Nat) (letter : Ligature) (joiner : Bool) : Option (Int × Ahead) :=
  match letter with
  | .alef =>
      if within lam n then some (0, .plain)
      else if charWidth n == 0 && !within nonTransparent n then some (0, .ligature .alef joiner)
      else none
  | .kiratE =>
      if n == 0x16D63 then some (0, .plain)
      else if n == 0x16D67 then some (0, .ligature .kiratAi false)
      else if n == 0x16D68 then some (1, .plain)
      else if n == 0x16D69 then some (0, .plain)
      else none
  | .kiratAi => if n == 0x16D63 then some (0, .plain) else none
  | letter =>
      if n == 0x200D then some (0, .ligature letter true)
      else if within unseenMark n then some (0, .ligature letter joiner)
      else
        match letter, joiner with
        | .lamed, true => if n == 0x5D0 then some (0, .plain) else none
        | .coengLetter, _ => if n == 0x17D2 then some (-1, .plain) else none
        | .ya, true => if n == 0x1A17 then some (0, .ligature .vowelYa true) else none
        | .vowelYa, _ => if n == 0x1A15 then some (0, .plain) else none
        | .tifinagh, tied =>
            if n == 0x2D7F then some (1, .ligature .tifinaghJoiner true)
            else if tied && within tifinaghConsonant n then some (0, .plain)
            else none
        | .tifinaghJoiner, _ => if within tifinaghConsonant n then some (-1, .plain) else none
        | .lisuTone, _ => if 0xA4F8 ≤ n && n ≤ 0xA4FB then some (0, .plain) else none
        | .orkhonI, true => if n == 0x10C32 then some (0, .plain) else none
        | _, _ => none

/-- The columns that a character adds before what lies ahead, and what then lies ahead, if the two
belong together. -/
def beforeAhead (n : Nat) : Ahead → Option (Int × Ahead)
  | .plain => none
  | .ligature letter joiner => beforeLetter n letter joiner
  | .emoji => if n == 0x200D then some (0, .joined) else none
  | .modifier =>
      if within modifierBase n then some (0, .emoji)
      else if n == 0x200D then some (0, .joined)
      else none
  | .indicator several =>
      if isIndicator n then some (1, .indicator true)
      else if several && n == 0x200D then some (0, .joined)
      else none
  | .joined =>
      if n == 0x20E3 then some (0, .joinedKeycap)
      else if isIndicator n then some (1, .joinedIndicator)
      else if isModifier n then some (0, .modifier)
      else if within emojiPresentation n then some (0, .emoji)
      else none
  | .joinedKeycap => none
  | .joinedIndicator => if isIndicator n then some (-1, .joinedPairs) else none
  | .joinedPairs =>
      if isIndicator n then some (3, .joinedOdd)
      else if n == 0x200D then some (0, .joined)
      else none
  | .joinedOdd =>
      if isIndicator n then some (-1, .joinedPairs)
      else if n == 0x200D then some (0, .joined)
      else none

/-- Whether a thing ahead is still ahead when a selector that does not apply stands before it. -/
def Ahead.survives : Ahead → Bool
  | .ligature _ _ => true
  | _ => false

/-- Whether a thing ahead hangs on a joiner. -/
def Ahead.hangs : Ahead → Bool
  | .joined | .joinedKeycap => true
  | _ => false

/-- The context with a selector put aside that does not apply. -/
def Context.withoutSelector (ctx : Context) : Context :=
  if ctx.selector.isNone || ctx.ahead.survives then ⟨ctx.ahead, none⟩ else ⟨.plain, none⟩

/-- One step of the scan: the columns that a character adds, and the context before it. -/
def step (n : Nat) (ctx : Context) : Int × Context :=
  if ctx.selector == some .emoji && within emojiVariation n then
    (if ctx.ahead.hangs then 0 else 2, ⟨.emoji, none⟩)
  else if n ≤ 0xA0 then (1, ⟨.plain, none⟩)
  else if n == 0xFE0F then
    let kept := if ctx.selector == some .emoji then ctx.withoutSelector else ctx
    (0, ⟨if kept.ahead.survives || kept.ahead.hangs then kept.ahead else .plain, some .emoji⟩)
  else if n == 0xFE0E then
    (0, ⟨if ctx.ahead.survives then ctx.ahead else .plain, some .text⟩)
  else if ctx.selector == some .text && within textVariation n then (1, ⟨.plain, none⟩)
  else
    match beforeAhead n ctx.withoutSelector.ahead with
    | some (columns, ahead) => (columns, ⟨ahead, none⟩)
    | none => (charWidth n, ⟨begins n, none⟩)

/-- The columns of a text, scanned from its end. -/
def scan : List Char → Int × Context
  | [] => (0, ⟨.plain, none⟩)
  | c :: cs =>
      let rest := scan cs
      let this := step c.toNat rest.2
      (this.1 + rest.1, this.2)

end ParenGap.Text.Width

namespace ParenGap.Text

/-- The columns that a text takes on a terminal. -/
def width (cs : List Char) : Nat := (Width.scan cs).1.toNat

/-- The columns that a line takes, a tab taking eight. -/
def lineWidth (cs : List Char) : Nat := width cs + 7 * cs.count '\t'

end ParenGap.Text
