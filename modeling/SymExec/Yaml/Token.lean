import SymExec.Text.Utf8
import SymExec.Yaml.Block
import SymExec.Yaml.Plain
import SymExec.Yaml.Quoted

/-!
# Tokens

A text is cut into tokens. Where a block collection starts is seen by its indentation, and marked by
a token of its own. A simple key is recognised only by the colon behind it: every token that a key
could start with is remembered as a candidate until the colon comes or the line ends.
-/
namespace SymExec.Yaml

/-- What a scalar holds. Escapes can name surrogates, so not all of it is text. -/
inductive Content where
  | text (cs : List Char)
  | points (ps : List Nat)
  deriving DecidableEq, Repr

def Content.ofPoints (ps : List Nat) : Content :=
  match Text.charsOfPoints? ps with
  | some cs => text cs
  | none => points ps

/-- A line ahead of a document that says how to read it. -/
inductive Directive where
  /-- The version of YAML, by its first number. -/
  | version (major : Int)
  /-- What the handle of a tag stands for. -/
  | handle (name spelled : String)
  | other
  deriving DecidableEq, Repr

inductive Token where
  | directive (d : Directive)
  | documentStart
  | documentEnd
  | streamEnd
  | blockSequence
  | blockMapping
  | blockEnd
  | flowSequence
  | flowSequenceEnd
  | flowMapping
  | flowMappingEnd
  | flowEntry
  | entry
  | key
  | value
  | alias (name : String)
  | anchor (name : String)
  /-- A tag by its handle, if it has one, and the rest. -/
  | tag (handle : Option String) (rest : String)
  | scalar (plain : Bool) (content : Content)
  deriving DecidableEq, Repr

/-! ## Names, tags and directives -/

def nameOf (gs : List Glyph) : Except Error (String × List Glyph) :=
  let name := charsWhile isNameChar gs
  if name.isEmpty then .error .malformed
  else .ok (String.ofList name, dropChars isNameChar gs)

def anchorName (gs : List Glyph) : Except Error (String × List Glyph) := do
  let (name, rest) ← nameOf gs
  if isGap (peek rest) || "?:,]\x7d%@`".contains (peek rest) then return (name, rest)
  else throw .malformed

def isTagChar (c : Char) : Bool := c.isAlphanum || "-;/?:@&=+$,_.!~*'()[]".contains c

/-- Bytes that are written as escapes, and what follows them. -/
def tagEscapes (fuel : Nat) (gs : List Glyph) : Except Error (List UInt8 × List Glyph) :=
  match fuel with
  | 0 => .ok ([], gs)
  | fuel + 1 => do
    if peek gs == '%' then
      let (n, rest) ← hexDigits 2 (gs.drop 1)
      let (more, rest) ← tagEscapes fuel rest
      return (UInt8.ofNat n :: more, rest)
    else return ([], gs)

def tagChars (fuel : Nat) (gs : List Glyph) : Except Error (List Char × List Glyph) :=
  match fuel with
  | 0 => .ok ([], gs)
  | fuel + 1 => do
    if isTagChar (peek gs) then
      let (more, rest) ← tagChars fuel (gs.drop 1)
      return (peek gs :: more, rest)
    else if peek gs == '%' then
      let (bytes, rest) ← tagEscapes gs.length gs
      match String.fromUTF8? ⟨bytes.toArray⟩ with
      | none => throw .malformed
      | some s =>
        let (more, rest) ← tagChars fuel rest
        return (s.toList ++ more, rest)
    else return ([], gs)

def tagText (gs : List Glyph) : Except Error (String × List Glyph) := do
  if isTagChar (peek gs) || peek gs == '%' then
    let (cs, rest) ← tagChars gs.length gs
    return (String.ofList cs, rest)
  else throw .malformed

/-- A handle: an exclamation mark alone ahead of a space, or two with a name between them. -/
def tagHandle (gs : List Glyph) : Except Error (String × List Glyph) :=
  if peek gs != '!' then .error .malformed
  else if peek (gs.drop 1) == ' ' then .ok ("!", gs.drop 1)
  else
    let name := charsWhile isNameChar (gs.drop 1)
    let rest := dropChars isNameChar (gs.drop 1)
    if peek rest == '!' then .ok ("!" ++ String.ofList name ++ "!", rest.drop 1)
    else .error .malformed

/-- Whether the word here has an exclamation mark in it. -/
def hasHandle (gs : List Glyph) : Bool :=
  (charsWhile (fun c => c != ' ' && !isEnd c) gs).contains '!'

def tagToken (gs : List Glyph) : Except Error (Token × List Glyph) := do
  let inner := gs.drop 1
  let (token, rest) ←
    if peek inner == '<' then do
      let (name, rest) ← tagText (inner.drop 1)
      if peek rest == '>' then pure (Token.tag none name, rest.drop 1) else throw .malformed
    else if isGap (peek inner) then pure (Token.tag none "!", inner)
    else do
      let (handle, rest) ← if hasHandle inner then tagHandle gs else pure ("!", inner)
      let (name, rest) ← tagText rest
      pure (Token.tag (some handle) name, rest)
  if peek rest == ' ' || isEnd (peek rest) then return (token, rest) else throw .malformed

def versionNumber (gs : List Glyph) : Except Error (Int × List Glyph) := do
  let digits := charsWhile Char.isDigit gs
  if digits.isEmpty then throw .malformed
  let n ← (Text.integer (String.ofList digits)).mapError .numeral
  return (n, dropChars Char.isDigit gs)

def directive (gs : List Glyph) : Except Error (Directive × List Glyph) := do
  let (name, rest) ← nameOf gs
  let closed := fun gs => peek gs == ' ' || isEnd (peek gs)
  if !closed rest then throw .malformed
  if name = "YAML" then
    let (major, rest) ← versionNumber (skipSpaces rest)
    if peek rest != '.' then throw .malformed
    let (_, rest) ← versionNumber (rest.drop 1)
    if !closed rest then throw .malformed
    return (.version major, ← finishLine rest)
  else if name = "TAG" then
    let (handle, rest) ← tagHandle (skipSpaces rest)
    if peek rest != ' ' then throw .malformed
    let (spelled, rest) ← tagText (skipSpaces rest)
    if !closed rest then throw .malformed
    return (.handle handle spelled, ← finishLine rest)
  else return (.other, ← finishLine (dropChars (fun c => !isEnd c) rest))

/-! ## The lexer -/

structure Candidate where
  /-- The nesting of flow collections. -/
  level : Int
  number : Nat
  /-- Whether it has to be a key, because of where it stands. -/
  required : Bool
  start : Glyph

/-- A text that is cut up to some point. -/
structure Lexer where
  rest : List Glyph
  tokens : List Token := []
  /-- The nesting of flow collections. -/
  level : Int := 0
  /-- The column of the innermost block collection, and those of the collections around it. -/
  indent : Int := -1
  outer : List Int := []
  /-- Whether a simple key may start here. -/
  keyAllowed : Bool := true
  candidates : List Candidate := []

namespace Lexer

def inFlow (x : Lexer) : Bool := x.level != 0

def emit (x : Lexer) (t : Token) : Lexer := { x with tokens := x.tokens ++ [t] }

/-- Skips spaces, line breaks and comments. Outside of flow collections a key may start in a new
line. -/
def skipFrom (flow comment allowed : Bool) : List Glyph → Bool × List Glyph
  | [] => (allowed, [])
  | g :: gs =>
    if isBreak g.char then skipFrom flow false (allowed || !flow) gs
    else if g.char == endMark then (allowed, g :: gs)
    else if comment || g.char == '#' then skipFrom flow true allowed gs
    else if g.char == ' ' then skipFrom flow false allowed gs
    else (allowed, g :: gs)

def skip (x : Lexer) : Lexer :=
  let (allowed, rest) := skipFrom x.inFlow false x.keyAllowed x.rest
  { x with keyAllowed := allowed, rest := rest }

/-- Whether a key that starts here can no longer end: it is in an earlier line or too long. -/
def isStale (x : Lexer) (c : Candidate) : Bool :=
  match x.rest with
  | g :: _ => g.line != c.start.line || 1024 < g.index - c.start.index
  | [] => true

/-- Forgets the candidates of a class, none of which may be required. -/
def forget (inClass : Candidate → Bool) (x : Lexer) : Except Error Lexer :=
  if x.candidates.any fun c => inClass c && c.required then .error .malformed
  else .ok { x with candidates := x.candidates.filter fun c => !inClass c }

def forgetStale (x : Lexer) : Except Error Lexer := x.forget x.isStale

def forgetLevel (x : Lexer) : Except Error Lexer := x.forget fun c => c.level == x.level

def remember (x : Lexer) : Except Error Lexer := do
  if !x.keyAllowed then return x
  let x ← x.forgetLevel
  match x.rest with
  | [] => return x
  | g :: _ =>
    let required := !x.inFlow && x.indent == g.column
    return { x with candidates := ⟨x.level, x.tokens.length, required, g⟩ :: x.candidates }

/-- Closes block collections until one is at `column` or further out. -/
def unwindFrom (column indent : Int) : List Int → Int × List Int × List Token
  | [] => (indent, [], [])
  | o :: outer =>
    if column < indent then
      let (indent, outer, ends) := unwindFrom column o outer
      (indent, outer, .blockEnd :: ends)
    else (indent, o :: outer, [])

def unwind (column : Int) (x : Lexer) : Lexer :=
  if x.inFlow then x
  else
    let (indent, outer, ends) := unwindFrom column x.indent x.outer
    { x with indent := indent, outer := outer, tokens := x.tokens ++ ends }

/-- Opens a block collection in a column, if it is further in, with a token ahead of token
`number`. -/
def openBlock (column : Int) (number : Nat) (t : Token) (x : Lexer) : Lexer :=
  if x.indent < column then
    { x with
      indent := column, outer := x.indent :: x.outer, tokens := x.tokens.insertIdx number t }
  else x

def take (x : Lexer) (count : Nat) (t : Token) : Lexer :=
  { x.emit t with rest := x.rest.drop count }

/-- A mark between documents, or the end. It closes all block collections. -/
def edge (x : Lexer) : Except Error Lexer := do
  let x ← (x.unwind (-1)).forgetLevel
  return { x with keyAllowed := false }

def openFlow (t : Token) (x : Lexer) : Except Error Lexer := do
  let x ← x.remember
  return { x.take 1 t with level := x.level + 1, keyAllowed := true }

def closeFlow (t : Token) (x : Lexer) : Except Error Lexer := do
  let x ← x.forgetLevel
  return { x.take 1 t with level := x.level - 1, keyAllowed := false }

/-- A mark ahead of an entry or a key that is not simple. -/
def mark (collection t : Token) (allowed : Bool) (x : Lexer) : Except Error Lexer := do
  if !x.inFlow && !x.keyAllowed then throw .malformed
  let x := if x.inFlow then x else x.openBlock (column x.rest) x.tokens.length collection
  let x ← x.forgetLevel
  return { x.take 1 t with keyAllowed := allowed }

/-- A colon. If there is a candidate on this level it is the key, else the key was marked. -/
def colon (x : Lexer) : Except Error Lexer :=
  match x.candidates.find? fun c => c.level == x.level with
  | some c =>
    let x := { x with
      candidates := x.candidates.filter fun c => c.level != x.level
      tokens := x.tokens.insertIdx c.number .key }
    let x := if x.inFlow then x else x.openBlock c.start.column c.number .blockMapping
    .ok { x.take 1 .value with keyAllowed := false }
  | none => x.mark .blockMapping .value (!x.inFlow)

/-- A token that a simple key may start with, from its reader. -/
def node (read : List Glyph → Except Error (Token × List Glyph)) (x : Lexer) :
    Except Error Lexer := do
  let x ← x.remember
  let (t, rest) ← read x.rest
  return { x.emit t with rest := rest, keyAllowed := false }

def quotedScalar (quote : Char) (gs : List Glyph) : Except Error (Token × List Glyph) := do
  let (points, rest) ← quotedPoints quote gs.length (gs.drop 1)
  return (.scalar false (.ofPoints points), rest)

def plainScalar (x : Lexer) : Except Error Lexer := do
  let x ← x.remember
  let (text, broken, rest) := plain x.inFlow (x.indent + 1) x.rest
  return { x.emit (.scalar true (.text text)) with rest := rest, keyAllowed := broken }

def blockScalar (fold : Bool) (x : Lexer) : Except Error Lexer := do
  let x ← { x with keyAllowed := true }.forgetLevel
  let (text, rest) ← block fold x.indent (x.rest.drop 1)
  return { x.emit (.scalar false (.text text)) with rest := rest }

def directiveLine (x : Lexer) : Except Error Lexer := do
  let x ← x.edge
  let (d, rest) ← directive (x.rest.drop 1)
  return { x.emit (.directive d) with rest := rest }

/-- Cuts off the next token, and what is known with it. -/
def next (x : Lexer) : Except Error Lexer := do
  let x ← x.skip.forgetStale
  let x := x.unwind (column x.rest)
  let marked := isGap (peek (x.rest.drop 1))
  match peek x.rest with
  | '\x00' => return { (← x.edge).emit .streamEnd with candidates := [] }
  | '[' => x.openFlow .flowSequence
  | '\x7b' => x.openFlow .flowMapping
  | ']' => x.closeFlow .flowSequenceEnd
  | '\x7d' => x.closeFlow .flowMappingEnd
  | ',' => return { (← x.forgetLevel).take 1 .flowEntry with keyAllowed := true }
  | '*' => x.node fun gs => do
    let (name, rest) ← anchorName (gs.drop 1)
    return (.alias name, rest)
  | '&' => x.node fun gs => do
    let (name, rest) ← anchorName (gs.drop 1)
    return (.anchor name, rest)
  | '!' => x.node tagToken
  | '\'' => x.node (quotedScalar '\'')
  | '"' => x.node (quotedScalar '"')
  | c =>
    if c == '%' && column x.rest == 0 then x.directiveLine
    else if isDocumentMark '-' x.rest then return (← x.edge).take 3 .documentStart
    else if isDocumentMark '.' x.rest then return (← x.edge).take 3 .documentEnd
    else if c == '-' && marked then x.mark .blockSequence .entry true
    else if c == '?' && (x.inFlow || marked) then x.mark .blockMapping .key (!x.inFlow)
    else if c == ':' && (x.inFlow || marked) then x.colon
    else if (c == '|' || c == '>') && !x.inFlow then x.blockScalar (c == '>')
    else if startsPlain x.inFlow x.rest then x.plainScalar
    else throw .malformed

/-- The number of tokens that are settled: no key can start ahead of them any more. -/
def settled (x : Lexer) : Nat :=
  x.candidates.foldl (fun n c => if x.isStale c then n else min n c.number) x.tokens.length

end Lexer

structure Tokens where
  list : List Token
  /-- The fault behind the last token; there is none behind the end of the stream. -/
  fault : Option Error := none

/-- Cuts a text from where a lexer stands. -/
def Tokens.from (fuel : Nat) (x : Lexer) : Tokens :=
  match fuel with
  | 0 => ⟨x.tokens, some .malformed⟩
  | fuel + 1 =>
    match x.next with
    | .error e => ⟨x.tokens.take x.settled, some e⟩
    | .ok y => if y.tokens.getLast? = some .streamEnd then ⟨y.tokens, none⟩ else Tokens.from fuel y

def Tokens.ofChars (cs : List Char) : Tokens :=
  let gs := glyphs cs
  Tokens.from (gs.length + 1) { rest := gs }

end SymExec.Yaml
