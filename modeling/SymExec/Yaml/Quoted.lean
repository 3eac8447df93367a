import SymExec.Text.Points
import SymExec.Yaml.Glyph

/-!
# Scalars between quotes

Between single quotes, two of them stand for one. Between double quotes, a backslash starts an
escape. Line breaks are folded in both.
-/
namespace SymExec.Yaml

def simpleEscape? (c : Char) : Option Char :=
  [('0', '\x00'), ('a', '\x07'), ('b', '\x08'), ('t', '\t'), ('\t', '\t'), ('n', '\n'),
    ('v', '\x0b'), ('f', '\x0c'), ('r', '\r'), ('e', '\x1b'), (' ', ' '), ('"', '"'), ('\\', '\\'),
    ('/', '/'), ('N', '\x85'), ('_', '\xa0'), ('L', '\u2028'), ('P', '\u2029')].lookup c

def escapeDigits? (c : Char) : Option Nat := [('x', 2), ('u', 4), ('U', 8)].lookup c

/-- The value of some hexadecimal digits, and what follows them. -/
def hexDigits (count : Nat) (gs : List Glyph) : Except Error (Nat × List Glyph) :=
  let digits := (gs.take count).map Glyph.char
  match Text.baseValue? 16 digits with
  | some n => if digits.length = count then .ok (n, gs.drop count) else .error .malformed
  | none => .error .malformed

/-- The code point that an escape names. Numbers of more than thirty-one bits are no candidates. -/
def escapedPoint (n : Nat) : Except Error Nat :=
  if n < 0x110000 then .ok n else if n < 0x80000000 then .error .codePoint else .error .malformed

/-- Line breaks with the blanks between them. At the start of a line, no document may start or
end. -/
def quotedBreaks (lineStart : Bool) : List Glyph → Except Error (List Char × List Glyph)
  | [] => .ok ([], [])
  | g :: gs => do
    if lineStart && isDocumentEdge (g :: gs) then throw .malformed
    else if g.char == ' ' || g.char == '\t' then quotedBreaks false gs
    else if isBreak g.char then
      let (more, rest) ← quotedBreaks true gs
      return (breakText g.char :: more, rest)
    else return ([], g :: gs)

/-- An escape from behind its backslash: the code points it stands for, and what follows. -/
def escape (gs : List Glyph) : Except Error (List Nat × List Glyph) := do
  let c := peek gs
  let after := gs.drop 1
  match simpleEscape? c, escapeDigits? c with
  | some x, _ => return ([x.toNat], after)
  | none, some count =>
    let (n, rest) ← hexDigits count after
    return ([← escapedPoint n], rest)
  | none, none =>
    if isBreak c then
      let (breaks, rest) ← quotedBreaks true after
      return (breaks.map Char.toNat, rest)
    else throw .malformed

/-- Blanks, which stand for themselves unless a line ends with them. -/
def quotedBlanks (gs : List Glyph) : Except Error (List Char × List Glyph) := do
  let blank := fun c => c == ' ' || c == '\t'
  let after := dropChars blank gs
  if isBreak (peek after) then
    let (more, rest) ← quotedBreaks true (after.drop 1)
    return (folded (peek after) more, rest)
  else return (charsWhile blank gs, after)

/-- The code points of a scalar from behind its opening quote, and what follows the closing one. -/
def quotedPoints (quote : Char) (fuel : Nat) (gs : List Glyph) :
    Except Error (List Nat × List Glyph) :=
  match fuel, gs with
  | 0, _ | _, [] => .error .malformed
  | fuel + 1, g :: rest => do
    if g.char == endMark then throw .malformed
    else if g.char == quote then
      if quote == '\'' && peek rest == quote then
        let (more, rest) ← quotedPoints quote fuel (rest.drop 1)
        return (quote.toNat :: more, rest)
      else return ([], rest)
    else if g.char == '\\' && quote == '"' then
      let (points, rest) ← escape rest
      let (more, rest) ← quotedPoints quote fuel rest
      return (points ++ more, rest)
    else if isGap g.char then
      let (gap, rest) ← quotedBlanks gs
      let (more, rest) ← quotedPoints quote fuel rest
      return (gap.map Char.toNat ++ more, rest)
    else
      let (more, rest) ← quotedPoints quote fuel rest
      return (g.char.toNat :: more, rest)

end SymExec.Yaml
