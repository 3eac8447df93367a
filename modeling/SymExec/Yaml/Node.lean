import SymExec.Yaml.Tag

/-!
# Nodes

A document is a graph of nodes: an alias stands for the node that its anchor names, so a node may be
in several places and even inside of itself. Nodes are numbered in the order in which they start.
-/
namespace SymExec.Yaml

/-- A node; the nodes inside of it are given by their numbers. -/
inductive Node where
  | scalar (tag : Tag) (content : Content)
  | sequence (tag : Tag) (items : List Nat)
  | mapping (tag : Tag) (entries : List (Nat × Nat))
  deriving DecidableEq, Repr

def Node.tag : Node → Tag
  | scalar tag _ | sequence tag _ | mapping tag _ => tag

def Node.retag (tag : Tag) : Node → Node
  | scalar _ content => scalar tag content
  | sequence _ items => sequence tag items
  | mapping _ entries => mapping tag entries

abbrev Graph := Array Node

structure Composer where
  tokens : List Token
  /-- The fault behind the last token. -/
  fault : Error
  nodes : Graph := #[]
  anchors : List (String × Nat) := []
  /-- What the handles of tags stand for. -/
  handles : List (String × String) := []

/-- Computations that take tokens and add nodes. -/
abbrev Compose := StateT Composer (Except Error)

namespace Compose

def peek : Compose Token := do
  let x ← get
  match x.tokens with
  | t :: _ => return t
  | [] => throw x.fault

def skip : Compose Unit := do
  let _ ← peek
  modify fun x => { x with tokens := x.tokens.drop 1 }

def accept (t : Token) : Compose Bool := do
  if (← peek) = t then
    skip
    return true
  else return false

def expect (t : Token) : Compose Unit := do
  if !(← accept t) then throw .malformed

def next (ts : List Token) : Compose Bool := do return ts.contains (← peek)

def add (anchor : Option String) (n : Node) : Compose Nat := do
  let number := (← get).nodes.size
  modify fun x => { x with
    nodes := x.nodes.push n
    anchors := (anchor.map fun name => (name, number)).toList ++ x.anchors }
  return number

def complete (number : Nat) (n : Node) : Compose Nat := do
  modify fun x => { x with nodes := x.nodes.setIfInBounds number n }
  return number

def empty : Compose Nat := add none (.scalar .null (.text []))

/-- A tag with what its handle stands for. -/
def resolve (handle : Option String) (rest : String) : Compose String := do
  match handle with
  | none => return rest
  | some h =>
    match (← get).handles.lookup h with
    | some spelled => return spelled ++ rest
    | none => throw .malformed

/-- An anchor and a tag ahead of a node, in any order. -/
def properties : Compose (Option String × Option String) := do
  match ← peek with
  | .anchor name =>
    skip
    match ← peek with
    | .tag handle rest =>
      skip
      return (some name, some (← resolve handle rest))
    | _ => return (some name, none)
  | .tag handle rest =>
    skip
    match ← peek with
    | .anchor name =>
      skip
      return (some name, some (← resolve handle rest))
    | _ => return (none, some (← resolve handle rest))
  | _ => return (none, none)

/-- The sort of a collection. The tag of a single exclamation mark says nothing. -/
def collectionTag (tag : Option String) (default : Tag) : Tag :=
  match tag with
  | none | some "!" => default
  | some name => .ofName name

/-- The sort of a scalar. The tag of a single exclamation mark says that its text decides. -/
def scalarTag (tag : Option String) (plain : Bool) (content : Content) : Tag :=
  match tag with
  | none => .ofContent plain content
  | some "!" => .ofContent true content
  | some name => .ofName name

/-- Collections nest at most so deep. -/
def maxDepth : Nat := 490

structure Place where
  block : Bool
  /-- Whether a block sequence may start without being indented. -/
  flush : Bool := false
  depth : Nat

mutual

def node (fuel : Nat) (p : Place) : Compose Nat :=
  match fuel with
  | 0 => throw .malformed
  | fuel + 1 => do
    if let .alias name ← peek then
      skip
      match (← get).anchors.lookup name with
      | some number => return number
      | none => throw .malformed
    let (anchor, tag) ← properties
    if maxDepth < p.depth then throw .malformed
    let fresh := fun (x : Composer) => anchor.all fun name => (x.anchors.lookup name).isNone
    let t ← peek
    let inner : Place := ⟨p.block, false, p.depth + 1⟩
    let start := fun (n : Node) => do
      if fresh (← get) then add anchor n else throw .malformed
    let sequence := Node.sequence (collectionTag tag .seq)
    let mapping := Node.mapping (collectionTag tag .map)
    match t with
    | .scalar plain content =>
      skip
      start (.scalar (scalarTag tag plain content) content)
    | .flowSequence =>
      let number ← start (sequence [])
      skip
      complete number (sequence (← flowItems fuel inner true))
    | .flowMapping =>
      let number ← start (mapping [])
      skip
      complete number (mapping (← flowEntries fuel inner true))
    | t =>
      if t = .entry && p.flush then
        let number ← start (sequence [])
        complete number (sequence (← flushItems fuel inner))
      else if t = .blockSequence && p.block then
        let number ← start (sequence [])
        skip
        complete number (sequence (← blockItems fuel inner))
      else if t = .blockMapping && p.block then
        let number ← start (mapping [])
        skip
        complete number (mapping (← blockEntries fuel inner))
      else if anchor.isSome || tag.isSome then
        start (.scalar (scalarTag tag true (.text [])) (.text []))
      else throw .malformed

def nodeUnless (ends : List Token) (fuel : Nat) (p : Place) : Compose Nat :=
  match fuel with
  | 0 => throw .malformed
  | fuel + 1 => do if ← next ends then empty else node fuel p

def blockItems (fuel : Nat) (p : Place) : Compose (List Nat) :=
  match fuel with
  | 0 => throw .malformed
  | fuel + 1 => do
    if ← accept .entry then
      let item ← nodeUnless [.entry, .blockEnd] fuel { p with block := true }
      return item :: (← blockItems fuel p)
    else
      expect .blockEnd
      return []

/-- The items of a block sequence that is not indented. -/
def flushItems (fuel : Nat) (p : Place) : Compose (List Nat) :=
  match fuel with
  | 0 => throw .malformed
  | fuel + 1 => do
    if ← accept .entry then
      let item ← nodeUnless [.entry, .key, .value, .blockEnd] fuel { p with block := true }
      return item :: (← flushItems fuel p)
    else return []

def blockEntries (fuel : Nat) (p : Place) : Compose (List (Nat × Nat)) :=
  match fuel with
  | 0 => throw .malformed
  | fuel + 1 => do
    if ← accept .key then
      let inner : Place := ⟨true, true, p.depth⟩
      let key ← nodeUnless [.key, .value, .blockEnd] fuel inner
      let value ←
        if ← accept .value then nodeUnless [.key, .value, .blockEnd] fuel inner else empty
      return (key, value) :: (← blockEntries fuel p)
    else
      expect .blockEnd
      return []

/-- The items of a flow sequence. An item with a key is a mapping of one entry. -/
def flowItems (fuel : Nat) (p : Place) (first : Bool) : Compose (List Nat) :=
  match fuel with
  | 0 => throw .malformed
  | fuel + 1 => do
    if ← accept .flowSequenceEnd then return []
    if !first then expect .flowEntry
    let inner : Place := ⟨false, false, p.depth⟩
    match ← peek with
    | .flowSequenceEnd =>
      skip
      return []
    | .key =>
      let number ← add none (.mapping .map [])
      skip
      let inner : Place := ⟨false, false, p.depth + 1⟩
      let key ← nodeUnless [.value, .flowEntry, .flowSequenceEnd] fuel inner
      let value ←
        if ← accept .value then nodeUnless [.flowEntry, .flowSequenceEnd] fuel inner else empty
      let _ ← complete number (.mapping .map [(key, value)])
      return number :: (← flowItems fuel p false)
    | _ =>
      let item ← node fuel inner
      return item :: (← flowItems fuel p false)

/-- The entries of a flow mapping. A node alone is a key without value. -/
def flowEntries (fuel : Nat) (p : Place) (first : Bool) : Compose (List (Nat × Nat)) :=
  match fuel with
  | 0 => throw .malformed
  | fuel + 1 => do
    if ← accept .flowMappingEnd then return []
    if !first then expect .flowEntry
    let inner : Place := ⟨false, false, p.depth⟩
    match ← peek with
    | .flowMappingEnd =>
      skip
      return []
    | .key =>
      skip
      let key ← nodeUnless [.value, .flowEntry, .flowMappingEnd] fuel inner
      let value ←
        if ← accept .value then nodeUnless [.flowEntry, .flowMappingEnd] fuel inner else empty
      return (key, value) :: (← flowEntries fuel p false)
    | _ =>
      let key ← node fuel inner
      let value ← empty
      return (key, value) :: (← flowEntries fuel p false)

end

/-! ## Documents -/

/-- The handles that need no directive. -/
def defaultHandles : List (String × String) := [("!", "!"), ("!!", Tag.common)]

/-- Takes the directives ahead of a document: at most one version, whose first number is one, and
each handle once. -/
def directives (fuel : Nat) (versioned : Bool) : Compose Unit :=
  match fuel with
  | 0 => throw .malformed
  | fuel + 1 => do
    match ← peek with
    | .directive (.version major) =>
      skip
      if versioned || major != 1 then throw .malformed
      directives fuel true
    | .directive (.handle name spelled) =>
      skip
      if ((← get).handles.lookup name).isSome then throw .malformed
      modify fun x => { x with handles := x.handles ++ [(name, spelled)] }
      directives fuel versioned
    | .directive .other =>
      skip
      directives fuel versioned
    | _ => modify fun x => { x with handles := x.handles ++ defaultHandles }

def documentEnds (fuel : Nat) : Compose Unit :=
  match fuel with
  | 0 => return
  | fuel + 1 => do if ← accept .documentEnd then documentEnds fuel

/-- The root of the only document, or nothing if there is none. Directives behind it are read before
they are refused, so a fault in them counts first. -/
def document (fuel : Nat) : Compose (Option Nat) := do
  let top : Place := ⟨true, false, 0⟩
  match ← peek with
  | .streamEnd => return none
  | t =>
    let root ← match t with
      | .directive _ | .documentStart =>
        directives fuel false
        expect .documentStart
        match ← peek with
        | .directive _ | .documentStart | .documentEnd | .streamEnd => empty
        | _ => node fuel top
      | _ =>
        modify fun x => { x with handles := defaultHandles }
        node fuel top
    documentEnds fuel
    if (← peek) = .streamEnd then return some root
    modify fun x => { x with handles := [] }
    directives fuel false
    throw .malformed

end Compose

def Graph.ofTokens (ts : Tokens) : Except Error (Graph × Option Nat) := do
  let x : Composer := { tokens := ts.list, fault := ts.fault.getD .malformed }
  let (root, x) ← (Compose.document (4 * ts.list.length + 4)).run x
  return (x.nodes, root)

end SymExec.Yaml
