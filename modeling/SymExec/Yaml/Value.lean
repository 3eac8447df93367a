import SymExec.Yaml.Node
import SymExec.Yaml.Scalar

/-!
# Values of documents

Nodes get their values level by level: a collection has a value at once, and what is inside of it
gets values when all of its level have theirs. So of two faults the one that is less deep counts.
-/
namespace SymExec.Yaml

inductive Made where
  | scalar (v : Setting)
  /-- A list, of which only the size is of interest. -/
  | list (size : Nat)
  /-- A mapping from keys to the numbers of nodes. -/
  | mapping (entries : List (Setting × Nat))

structure Maker where
  nodes : Graph
  values : List (Nat × Made) := []
  /-- The collections whose content has no value yet, in order. -/
  waiting : List Nat := []

abbrev Make := StateT Maker (Except Error)

namespace Make

def node (number : Nat) : Make Node := do
  return (← get).nodes.getD number (.scalar .null (.text []))

def setNode (number : Nat) (n : Node) : Make Unit :=
  modify fun x => { x with nodes := x.nodes.setIfInBounds number n }

def setValue (number : Nat) (v : Made) : Make Unit :=
  modify fun x => { x with values := (number, v) :: x.values }

/-! ## Merging -/

/-- The mappings that the value of a merge key names, the one whose entries count least first. -/
def mergeSources (number : Nat) : Make (List Nat) := do
  match ← node number with
  | .mapping _ _ => return [number]
  | .sequence _ items => return items.reverse
  | .scalar _ _ => throw .malformed

/-- Replaces the merge keys of a mapping by the entries they stand for, which come ahead of its
own. -/
def flatten (fuel number : Nat) : Make Unit :=
  match fuel with
  | 0 => throw .malformed
  | fuel + 1 => do
    match ← node number with
    | .mapping tag entries =>
      let tagged ← entries.mapM fun (key, value) => do return ((← node key).tag, key, value)
      let own := (tagged.filter fun (t, _) => t != .merge).map Prod.snd
      let merges := (tagged.filter fun (t, _) => t == .merge).map Prod.snd
      for (t, key, _) in tagged do
        if t = .value then setNode key ((← node key).retag .str)
      setNode number (.mapping tag own)
      let merged ← merges.mapM fun (_, value) => do
        (← mergeSources value).mapM fun source => do
          flatten fuel source
          match ← node source with
          | .mapping _ entries => return entries
          | _ => throw .malformed
      setNode number (.mapping tag (merged.flatten.flatten ++ own))
    | _ => throw .malformed

/-! ## Scalars -/

/-- The content of a scalar. A mapping with a value key stands for the scalar under that key. -/
def scalarContent (fuel number : Nat) : Make Content :=
  match fuel with
  | 0 => throw .malformed
  | fuel + 1 => do
    match ← node number with
    | .scalar _ content => return content
    | .sequence _ _ => throw .malformed
    | .mapping _ entries =>
      let tagged ← entries.mapM fun (key, value) => do return ((← node key).tag, value)
      match tagged.lookup .value with
      | some value => scalarContent fuel value
      | none => throw .malformed

/-! ## Collections -/

def value (number : Nat) : Make Made := do
  let x ← get
  match x.values.lookup number with
  | some v => return v
  | none =>
    let n ← node number
    let (v, collection) ← match n.tag with
      | .seq | .set | .omap | .pairs => pure (Made.list 0, true)
      | .map => pure (Made.mapping [], true)
      | .timestamp =>
        match n with
        | .scalar _ content => pure (Made.scalar (← scalarValue .timestamp content), false)
        | _ => throw .malformed
      | tag =>
        let content ← scalarContent (x.nodes.size + 1) number
        pure (Made.scalar (← scalarValue tag content), false)
    setValue number v
    if collection then modify fun x => { x with waiting := x.waiting ++ [number] }
    return v

/-- Entries with one more: in place of the entry of the same key, or at the end. -/
def insert (key : Setting) (number : Nat) : List (Setting × Nat) → List (Setting × Nat)
  | [] => [(key, number)]
  | (k, n) :: rest =>
    if k.sameKey key then (k, number) :: rest else (k, n) :: insert key number rest

/-- The entries of a mapping. A collection is no key. -/
def entriesOf (number : Nat) : Make (List (Setting × Nat)) := do
  flatten ((← get).nodes.size + 1) number
  match ← node number with
  | .mapping _ entries =>
    entries.foldlM (fun done (key, item) => do
      match ← value key with
      | .scalar k =>
        let _ ← value item
        return insert k item done
      | _ => throw .malformed) []
  | _ => throw .malformed

def fill (number : Nat) : Make Unit := do
  let n ← node number
  match n.tag, n with
  | .map, _ => setValue number (.mapping (← entriesOf number))
  | .set, _ => setValue number (.list (← entriesOf number).length)
  | .seq, .sequence _ items =>
    for item in items do
      let _ ← value item
    setValue number (.list items.length)
  | _, .sequence _ items =>
    for item in items do
      match ← node item with
      | .mapping _ [(key, inner)] =>
        let _ ← value key
        let _ ← value inner
      | _ => throw .malformed
    setValue number (.list items.length)
  | _, _ => throw .malformed

/-- Gives values to all that is waiting. No node waits twice. -/
def fillAll (fuel : Nat) : Make Unit :=
  match fuel with
  | 0 => return
  | fuel + 1 => do
    match (← get).waiting with
    | [] => return
    | number :: rest =>
      modify fun x => { x with waiting := rest }
      fill number
      fillAll fuel

end Make

/-- The setting of a node. A node may be inside of itself, so mappings are unfolded to some depth
only, and are empty beyond it. -/
def Maker.setting (x : Maker) (depth number : Nat) : Setting :=
  match x.values.lookup number with
  | some (.scalar v) => v
  | some (.list size) => .value (.arr (List.replicate size .null))
  | some (.mapping entries) =>
    match depth with
    | 0 => .mapping []
    | depth + 1 => .mapping (entries.map fun (k, n) => (k, x.setting depth n))
  | none => .value .null

/-- Reads a text of one document, unfolding its mappings to some depth. An empty text stands for
`null`. -/
def read (depth : Nat) (text : String) : Except Error Setting := do
  let cs := text.toList
  if !cs.all isAllowed then throw .malformed
  let (nodes, root) ← Graph.ofTokens (.ofChars cs)
  match root with
  | none => return .value .null
  | some root =>
    let (_, x) ← (do
      let _ ← Make.value root
      Make.fillAll (nodes.size + 1) : Make Unit).run { nodes := nodes }
    return x.setting depth root

end SymExec.Yaml
