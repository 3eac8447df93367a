import SymExec.Yaml.Glyph

/-!
# Block scalars

After a header in the line of its mark, a block scalar is all that is indented. Lines are kept as
they are, or folded; line breaks at the end are kept, dropped, or cut to one.
-/
namespace SymExec.Yaml

/-- What happens to the line breaks at the end. -/
inductive Chomping where
  | clip
  | strip
  | keep
  deriving DecidableEq, Repr

def chomping? (c : Char) : Option Chomping :=
  if c == '+' then some .keep else if c == '-' then some .strip else none

/-- An indentation that is given by a digit. -/
def increment? (c : Char) : Except Error (Option Nat) :=
  if c == '0' then .error .malformed
  else .ok (if c.isDigit then some (c.toNat - 48) else none)

/-- The header of a block scalar: how it ends and its indentation, in any order. -/
def blockHeader (gs : List Glyph) : Except Error (Chomping × Option Nat × List Glyph) := do
  let (chomping, increment, rest) ← match chomping? (peek gs) with
    | some chomping => do
      match ← increment? (peek (gs.drop 1)) with
      | some n => pure (chomping, some n, gs.drop 2)
      | none => pure (chomping, none, gs.drop 1)
    | none => do
      match ← increment? (peek gs) with
      | some n =>
        match chomping? (peek (gs.drop 1)) with
        | some chomping => pure (chomping, some n, gs.drop 2)
        | none => pure (.clip, some n, gs.drop 1)
      | none => pure (.clip, none, gs)
  if peek rest == ' ' || isEnd (peek rest) then return (chomping, increment, ← finishLine rest)
  else throw .malformed

/-- The line breaks ahead of the first line with anything but spaces, the largest column that a
space leads to, and that line behind its spaces. -/
def leadingBreaks (deepest : Nat) : List Glyph → List Char × Nat × List Glyph
  | [] => ([], deepest, [])
  | g :: gs =>
    if g.char == ' ' then leadingBreaks (max deepest (column gs)) gs
    else if isBreak g.char then
      let (more, deepest, rest) := leadingBreaks deepest gs
      (breakText g.char :: more, deepest, rest)
    else ([], deepest, g :: gs)

/-- Line breaks with the spaces of the indentation between them. -/
def blockBreaks (indent : Nat) : List Glyph → List Char × List Glyph
  | [] => ([], [])
  | g :: gs =>
    if g.char == ' ' && g.column < indent then blockBreaks indent gs
    else if isBreak g.char then
      let (more, rest) := blockBreaks indent gs
      (breakText g.char :: more, rest)
    else ([], g :: gs)

def startsLine (indent : Nat) (gs : List Glyph) : Bool := column gs == indent && peek gs != endMark

structure BlockLines where
  text : List Char
  /-- The break behind the last line. -/
  last : List Char
  /-- Further breaks. -/
  more : List Char
  rest : List Glyph

/-- Reads lines behind the line breaks `breaks`. A break between two lines that do not start with a
blank is folded. -/
def blockLines (fold : Bool) (indent fuel : Nat) (breaks : List Char) (gs : List Glyph) :
    BlockLines :=
  match fuel with
  | 0 => ⟨[], [], breaks, gs⟩
  | fuel + 1 =>
    if !startsLine indent gs then ⟨[], [], breaks, gs⟩
    else
      let line := charsWhile (fun c => !isEnd c) gs
      let after := dropChars (fun c => !isEnd c) gs
      let broken := isBreak (peek after)
      let last := if broken then [breakText (peek after)] else []
      let (more, rest) := blockBreaks indent (if broken then after.drop 1 else after)
      if startsLine indent rest then
        let blank := fun c => c == ' ' || c == '\t'
        let joint :=
          if fold && last == ['\n'] && !blank (peek gs) && !blank (peek rest) then
            if more.isEmpty then [' '] else []
          else last
        let lines := blockLines fold indent fuel more rest
        { lines with text := breaks ++ line ++ joint ++ lines.text }
      else ⟨breaks ++ line, last, more, rest⟩

/-- A block scalar from behind its mark, inside of a collection in column `outer`. -/
def block (fold : Bool) (outer : Int) (gs : List Glyph) :
    Except Error (List Char × List Glyph) := do
  let (chomping, increment, rest) ← blockHeader gs
  let least := (max 1 (outer + 1)).toNat
  let lines := match increment with
    | some n =>
      let (breaks, rest) := blockBreaks (least + n - 1) rest
      blockLines fold (least + n - 1) gs.length breaks rest
    | none =>
      let (breaks, deepest, rest) := leadingBreaks 0 rest
      blockLines fold (max least deepest) gs.length breaks rest
  let text := match chomping with
    | .strip => lines.text
    | .clip => lines.text ++ lines.last
    | .keep => lines.text ++ lines.last ++ lines.more
  return (text, lines.rest)

end SymExec.Yaml
