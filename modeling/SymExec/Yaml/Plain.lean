import SymExec.Yaml.Glyph

/-!
# Scalars without quotes

A plain scalar goes on over spaces and line breaks as long as the lines are indented. Inside of flow
collections the characters that divide entries end it.
-/
namespace SymExec.Yaml

/-- Whether a character divides the entries of flow collections. -/
def isFlowMark (c : Char) : Bool := ",[]\x7b\x7d".contains c

def startsPlain (flow : Bool) (gs : List Glyph) : Bool :=
  let c := peek gs
  let special := isGap c || "-?:,[]\x7b\x7d#&*!|>'\"%@`".contains c
  !special || (!isGap (peek (gs.drop 1)) && (c == '-' || (!flow && (c == '?' || c == ':'))))

def endsPlain (flow : Bool) (c next : Char) : Bool :=
  isGap c || (c == ':' && (isGap next || (flow && isFlowMark next))) ||
    (flow && (c == '?' || isFlowMark c))

/-- The characters of a plain scalar up to a gap. -/
def plainWord (flow : Bool) : List Glyph → List Char × List Glyph
  | [] => ([], [])
  | g :: gs =>
    if endsPlain flow g.char (peek gs) then ([], g :: gs)
    else
      let (word, rest) := plainWord flow gs
      (g.char :: word, rest)

/-- Line breaks after the first one, with the spaces between them, up to the edge of a document.
There are none to go on after if such an edge is met. -/
def plainBreaks : List Glyph → Option (List Char) × List Glyph
  | [] => (some [], [])
  | g :: gs =>
    if g.char == ' ' then plainBreaks gs
    else if isBreak g.char then
      if isDocumentEdge gs then (none, gs)
      else
        let (more, rest) := plainBreaks gs
        (more.map (breakText g.char :: ·), rest)
    else (some [], g :: gs)

/-- What separates two words of a plain scalar. -/
structure Separation where
  /-- What it stands for, or nothing if the scalar ends. -/
  text : Option (List Char)
  /-- Whether there is a line break in it. -/
  broken : Bool
  rest : List Glyph

/-- The spaces or line breaks behind a word. -/
def separation (gs : List Glyph) : Separation :=
  let spaces := charsWhile (· == ' ') gs
  let after := skipSpaces gs
  if isBreak (peek after) then
    let next := after.drop 1
    if isDocumentEdge next then ⟨none, true, next⟩
    else
      let (more, rest) := plainBreaks next
      ⟨more.map (folded (peek after)), true, rest⟩
  else ⟨if spaces.isEmpty then none else some spaces, false, after⟩

/-- The rest of a plain scalar behind a word, whether a line break was the last thing read, and what
follows. -/
def plainTail (flow : Bool) (indent : Int) (fuel : Nat) (gs : List Glyph) :
    List Char × Bool × List Glyph :=
  match fuel with
  | 0 => ([], false, gs)
  | fuel + 1 =>
    let s := separation gs
    match s.text with
    | none => ([], s.broken, s.rest)
    | some gap =>
      let (word, after) := plainWord flow s.rest
      if peek s.rest == '#' || (!flow && (column s.rest : Int) < indent) || word.isEmpty then
        ([], s.broken, s.rest)
      else
        let (more, broken, rest) := plainTail flow indent fuel after
        (gap ++ word ++ more, broken, rest)

/-- A plain scalar, whose further lines are indented by at least `indent`. -/
def plain (flow : Bool) (indent : Int) (gs : List Glyph) : List Char × Bool × List Glyph :=
  let (word, rest) := plainWord flow gs
  let (more, broken, rest) := plainTail flow indent gs.length rest
  (word ++ more, broken, rest)

end SymExec.Yaml
