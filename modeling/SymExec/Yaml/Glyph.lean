import SymExec.Yaml.Error

/-!
# Characters in their places

A text is read as a list of characters that know their line and column, because what a character
means depends on where it stands. The list ends with a mark that is no character of the text.
-/
namespace SymExec.Yaml

structure Glyph where
  char : Char
  index : Nat
  line : Nat
  column : Nat
  deriving DecidableEq, Repr

/-- The character behind the last one of a text. -/
def endMark : Char := '\x00'

def isBreak (c : Char) : Bool := c == '\n' || c == '\x85' || c == '\u2028' || c == '\u2029'

/-- Places characters, and the end mark behind them. A byte order mark takes no column. -/
def glyphsFrom (index line column : Nat) : List Char → List Glyph
  | [] => [⟨endMark, index, line, column⟩]
  | c :: cs =>
    ⟨c, index, line, column⟩ ::
      if isBreak c then glyphsFrom (index + 1) (line + 1) 0 cs
      else glyphsFrom (index + 1) line (if c == '\ufeff' then column else column + 1) cs

/-- The characters of a text in their places. A byte order mark ahead of it is dropped. -/
def glyphs : List Char → List Glyph
  | [] => glyphsFrom 0 0 0 []
  | c :: cs => glyphsFrom 0 0 0 (if c == '\ufeff' then cs else c :: cs)

/-- Whether a text may hold a character. Lines end with a line feed, so there is no carriage
return. -/
def isAllowed (c : Char) : Bool :=
  let n := c.toNat
  n == 9 || n == 10 || (0x20 ≤ n && n ≤ 0x7e) || n == 0x85 || (0xa0 ≤ n && n ≤ 0xfffd) ||
    0x10000 ≤ n

def peek (gs : List Glyph) : Char :=
  match gs with
  | g :: _ => g.char
  | [] => endMark

def column (gs : List Glyph) : Nat :=
  match gs with
  | g :: _ => g.column
  | [] => 0

def charsWhile (inClass : Char → Bool) (gs : List Glyph) : List Char :=
  (gs.takeWhile fun g => inClass g.char).map Glyph.char

def dropChars (inClass : Char → Bool) (gs : List Glyph) : List Glyph :=
  gs.dropWhile fun g => inClass g.char

def isEnd (c : Char) : Bool := c == endMark || isBreak c

/-- Whether a character divides words. -/
def isGap (c : Char) : Bool := c == ' ' || c == '\t' || isEnd c

/-- Whether a character may stand in the name of an anchor, a directive or a tag handle. -/
def isNameChar (c : Char) : Bool := c.isAlphanum || c == '-' || c == '_'

/-- What a line break stands for inside a scalar: one of the two Unicode separators for itself, any
other for a line feed. -/
def breakText (c : Char) : Char := if c == '\u2028' || c == '\u2029' then c else '\n'

def isDocumentMark (mark : Char) (gs : List Glyph) : Bool :=
  match gs with
  | a :: b :: c :: rest =>
    a.column == 0 && a.char == mark && b.char == mark && c.char == mark && isGap (peek rest)
  | _ => false

/-- Whether a document starts or ends here. -/
def isDocumentEdge (gs : List Glyph) : Bool := isDocumentMark '-' gs || isDocumentMark '.' gs

def skipSpaces (gs : List Glyph) : List Glyph := dropChars (· == ' ') gs

/-- Skips the rest of a line that holds nothing but a comment. -/
def finishLine (gs : List Glyph) : Except Error (List Glyph) :=
  let gs := skipSpaces gs
  let gs := if peek gs == '#' then dropChars (fun c => !isEnd c) gs else gs
  if isBreak (peek gs) then .ok (gs.drop 1)
  else if peek gs == endMark then .ok gs
  else .error .malformed

/-- What line breaks stand for that a scalar goes on after: the first of several is dropped, one
alone is a space, but a Unicode separator is kept. -/
def folded (first : Char) (more : List Char) : List Char :=
  (if breakText first ≠ '\n' then [first] else if more.isEmpty then [' '] else []) ++ more

end SymExec.Yaml
