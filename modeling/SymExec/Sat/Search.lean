import Std.Tactic.BVDecide.LRAT.Actions

/-!
# Clause search

A conflict-driven search over a formula in conjunctive normal form. It ends with a truth
assignment, or with the derivation of the empty clause, written as the reverse-unit-propagation
steps that a checker can replay.

Nothing here is trusted: an assignment is evaluated and a derivation is replayed by whoever asked,
so the rules of the search (which variable next, when to restart) are free to change.

A literal is a number: variable `v` is `2 * v`, its negation `2 * v + 1`. A clause is named by its
number, counted from one in the order in which the checker meets it. Functions take their state
apart before they change it, so that each array has one owner and is changed in place.
-/
namespace SymExec.Sat

open Std.Sat
open Std.Tactic.BVDecide.LRAT (IntAction)

@[inline] def flip (l : Nat) : Nat := if l % 2 = 0 then l + 1 else l - 1

/-- The signed variable number, counted from one, that derivation steps use. -/
def signed (l : Nat) : Int := if l % 2 = 0 then (l / 2 + 1 : Nat) else -((l / 2 + 1 : Nat) : Int)

inductive Outcome where
  /-- The truth value found for each variable. -/
  | model (values : Array Bool)
  /-- Steps that derive the empty clause. -/
  | derivation (steps : Array IntAction)
  /-- The budget ran out. -/
  | undecided

/-! ## The order of decisions -/

/-- A binary heap of variables, the most active one first. -/
structure Heap where
  items : Array Nat
  /-- Where a variable stands in `items`, plus one; zero if it is absent. -/
  place : Array Nat
  weight : Array Nat

namespace Heap

@[inline] def heavier (h : Heap) (i j : Nat) : Bool :=
  h.weight.getD (h.items.getD j 0) 0 < h.weight.getD (h.items.getD i 0) 0

def exchange (h : Heap) (i j : Nat) : Heap :=
  match h with
  | ⟨items, place, weight⟩ =>
    let a := items.getD i 0
    let b := items.getD j 0
    ⟨(items.set! i b).set! j a, (place.set! a (j + 1)).set! b (i + 1), weight⟩

def siftUp (h : Heap) (i : Nat) : Heap :=
  if i = 0 then h
  else if h.heavier i ((i - 1) / 2) then siftUp (h.exchange i ((i - 1) / 2)) ((i - 1) / 2)
  else h
  termination_by i
  decreasing_by omega

@[inline] def heavierChild (h : Heap) (i : Nat) : Nat :=
  if 2 * i + 2 < h.items.size && h.heavier (2 * i + 2) (2 * i + 1) then 2 * i + 2 else 2 * i + 1

def siftDown (h : Heap) (i : Nat) : (fuel : Nat) → Heap
  | 0 => h
  | fuel + 1 =>
    if 2 * i + 1 < h.items.size && h.heavier (h.heavierChild i) i then
      let c := h.heavierChild i
      siftDown (h.exchange i c) c fuel
    else h

def insert (h : Heap) (v : Nat) : Heap :=
  if h.place.getD v 1 = 0 then
    match h with
    | ⟨items, place, weight⟩ =>
      let i := items.size
      siftUp ⟨items.push v, place.set! v (i + 1), weight⟩ i
  else h

def pop (h : Heap) : Heap :=
  let top := h.items.getD 0 0
  match h.exchange 0 (h.items.size - 1) with
  | ⟨items, place, weight⟩ => siftDown ⟨items.pop, place.set! top 0, weight⟩ 0 64

def bump (h : Heap) (v amount : Nat) : Heap :=
  match h with
  | ⟨items, place, weight⟩ =>
    let i := place.getD v 0
    let was := weight.getD v 0
    let h : Heap := ⟨items, place, weight.set! v (was + amount)⟩
    if i = 0 then h else h.siftUp (i - 1)

/-- Divides every weight by the same power of two, which keeps their order. -/
def shrink (h : Heap) : Heap :=
  match h with
  | ⟨items, place, weight⟩ => ⟨items, place, weight.map (· >>> 40)⟩

end Heap

/-! ## Truth values -/

/-- The truth values given so far. -/
structure Trail where
  /-- For each literal: 0 open, 1 true, 2 false. -/
  value : ByteArray
  /-- The number of decisions before a variable got its value. -/
  level : Array Nat
  /-- The clause that forced a variable, 0 for a decision. -/
  reason : Array Nat
  /-- Where a variable stands on the trail. -/
  rank : Array Nat
  /-- The true literals, oldest first. -/
  lits : Array Nat
  /-- The length of the trail at each decision. -/
  limits : Array Nat
  /-- How much of the trail has been propagated. -/
  head : Nat

namespace Trail

/-- Makes literal `l` true, forced by clause `reason`. -/
def assign (t : Trail) (l r : Nat) : Trail :=
  match t with
  | ⟨value, level, reason, rank, lits, limits, head⟩ =>
    let n := lits.size
    let d := limits.size
    ⟨(value.set! l 1).set! (flip l) 2, level.set! (l / 2) d, reason.set! (l / 2) r,
      rank.set! (l / 2) n, lits.push l, limits, head⟩

def decision (t : Trail) : Trail :=
  match t with
  | ⟨value, level, reason, rank, lits, limits, head⟩ =>
    let n := lits.size
    ⟨value, level, reason, rank, lits, limits.push n, head⟩

def pop (t : Trail) : Trail :=
  match t with
  | ⟨value, level, reason, rank, lits, limits, head⟩ =>
    let l := lits.getD (lits.size - 1) 0
    ⟨(value.set! l 0).set! (flip l) 0, level, reason, rank, lits.pop, limits, head⟩

end Trail

/-! ## Clauses -/

structure Clauses where
  lits : Array Nat
  start : Array Nat
  len : Array Nat
  /-- The clauses that watch a literal. -/
  watches : Array (Array Nat)

@[inline] def watch (watches : Array (Array Nat)) (l id : Nat) : Array (Array Nat) :=
  watches.modify l (·.push id)

/-- Adds a clause. Its first two literals are watched if it has as many and `active` says so. -/
def Clauses.add (c : Clauses) (ls : Array Nat) (active : Bool) : Clauses :=
  match c with
  | ⟨lits, start, len, watches⟩ =>
    let id := start.size
    let n := lits.size
    let watches :=
      if active && 2 ≤ ls.size then watch (watch watches (ls.getD 0 0) id) (ls.getD 1 0) id
      else watches
    ⟨lits ++ ls, start.push n, len.push ls.size, watches⟩

/-- The first position from `i` on whose literal is not false, `i + n` if there is none. -/
def openFrom (lits : Array Nat) (value : ByteArray) (i : Nat) : (n : Nat) → Nat
  | 0 => i
  | n + 1 => if value.get! (lits.getD i 0) == 2 then openFrom lits value (i + 1) n else i

/-- Visits the clauses that watch `l`, which has become false. The clauses from position `i` of
`ws` on are still to be visited, `kept` still watch `l`. Returns the violated clause, 0 if none. -/
def visit (start len : Array Nat) (l : Nat) (ws kept : Array Nat) (i : Nat)
    (lits : Array Nat) (watches : Array (Array Nat)) (t : Trail) :
    Array Nat × Array (Array Nat) × Trail × Nat :=
  if h : i < ws.size then
    let id := ws[i]
    let base := start.getD id 0
    let a := lits.getD base 0
    let other := if a = l then lits.getD (base + 1) 0 else a
    let held := t.value.get! other
    if held == 1 then visit start len l ws (kept.push id) (i + 1) lits watches t
    else
      let stop := base + len.getD id 0
      let k := openFrom lits t.value (base + 2) (stop - (base + 2))
      if k < stop then
        let next := lits.getD k 0
        let lits := ((lits.set! base other).set! (base + 1) next).set! k l
        visit start len l ws kept (i + 1) lits (watch watches next id) t
      else if held == 2 then
        (lits, watches.set! l (kept ++ ws.extract i ws.size), t, id)
      else
        visit start len l ws (kept.push id) (i + 1) lits watches (t.assign other id)
  else (lits, watches.set! l kept, t, 0)
  termination_by ws.size - i

/-- Unit propagation. Returns the violated clause, 0 if none. -/
def propagate (start len : Array Nat) (lits : Array Nat) (watches : Array (Array Nat)) (t : Trail) :
    (fuel : Nat) → Array Nat × Array (Array Nat) × Trail × Nat
  | 0 => (lits, watches, t, 0)
  | fuel + 1 =>
    if t.head < t.lits.size then
      let l := flip (t.lits.getD t.head 0)
      let t := match t with
        | ⟨value, level, reason, rank, lits, limits, head⟩ =>
          (⟨value, level, reason, rank, lits, limits, head + 1⟩ : Trail)
      let ws := watches.getD l #[]
      match visit start len l ws #[] 0 lits (watches.set! l #[]) t with
      | (lits, watches, t, 0) => propagate start len lits watches t fuel
      | (lits, watches, t, id) => (lits, watches, t, id)
    else (lits, watches, t, 0)

/-! ## The search -/

structure Search where
  clauses : Clauses
  trail : Trail
  heap : Heap
  /-- The sign a variable had last. -/
  phase : ByteArray
  /-- Marks used while a conflict is analysed. -/
  seen : ByteArray
  /-- How much a variable gains when a conflict involves it. -/
  amount : Nat
  /-- How much of the trail has been written to `steps` as unit clauses. -/
  fixed : Nat
  steps : Array IntAction

namespace Search

def valueOf (s : Search) (l : Nat) : UInt8 := s.trail.value.get! l

/-- Unit propagation. Returns the violated clause, 0 if none. -/
def propagate (s : Search) : Search × Nat :=
  match s with
  | ⟨⟨lits, start, len, watches⟩, trail, heap, phase, seen, amount, fixed, steps⟩ =>
    match Sat.propagate start len lits watches trail (phase.size + 1) with
    | (lits, watches, trail, id) =>
      (⟨⟨lits, start, len, watches⟩, trail, heap, phase, seen, amount, fixed, steps⟩, id)

/-- Adds a clause with the step that derives it. -/
def derive (s : Search) (ls hints : Array Nat) (active : Bool) : Search :=
  match s with
  | ⟨clauses, trail, heap, phase, seen, amount, fixed, steps⟩ =>
    let step : IntAction := .addRup clauses.start.size (ls.map signed) hints
    ⟨clauses.add ls active, trail, heap, phase, seen, amount, fixed, steps.push step⟩

/-- Writes every literal that holds without decisions as a unit clause. -/
def fixUnits (s : Search) : (fuel : Nat) → Search
  | 0 => s
  | fuel + 1 =>
    if s.fixed < s.trail.lits.size then
      let l := s.trail.lits.getD s.fixed 0
      let r := s.trail.reason.getD (l / 2) 0
      let s := match s with
        | ⟨clauses, trail, heap, phase, seen, amount, fixed, steps⟩ =>
          (⟨clauses, trail, heap, phase, seen, amount, fixed + 1, steps⟩ : Search)
      if s.clauses.len.getD r 0 ≤ 1 then fixUnits s fuel
      else fixUnits (s.derive #[l] #[r] false) fuel
    else s

/-- Takes back the newest `n` assignments. -/
def unwind (trail : Trail) (heap : Heap) (phase : ByteArray) : (n : Nat) →
    Trail × Heap × ByteArray
  | 0 => (trail, heap, phase)
  | n + 1 =>
    let l := trail.lits.getD (trail.lits.size - 1) 0
    unwind trail.pop (heap.insert (l / 2)) (phase.set! (l / 2) (if l % 2 = 0 then 1 else 0)) n

/-- Takes back every assignment made above decision level `target`. -/
def backtrack (s : Search) (target : Nat) : Search :=
  if s.trail.limits.size ≤ target then s
  else
    let cut := s.trail.limits.getD target 0
    match s with
    | ⟨clauses, trail, heap, phase, seen, amount, fixed, steps⟩ =>
      match unwind trail heap phase (trail.lits.size - cut) with
      | (⟨value, level, reason, rank, lits, limits, _⟩, heap, phase) =>
        ⟨clauses, ⟨value, level, reason, rank, lits, limits.shrink target, cut⟩, heap, phase, seen,
          amount, fixed, steps⟩

/-- What is known while a conflict is analysed. -/
structure Analysis where
  /-- For each variable: 1 met, 2 resolved away. -/
  seen : ByteArray
  heap : Heap
  /-- Literals of earlier levels in the clause that is being learned. -/
  lower : Array Nat
  /-- Variables resolved away. -/
  used : Array Nat
  /-- Literals of the current level not yet resolved. -/
  pending : Nat

/-- Takes the literals of a clause at positions `k`, …, `k + n - 1` into the analysis. -/
def gather (lits level : Array Nat) (here amount : Nat) (a : Analysis) (k : Nat) :
    (n : Nat) → Analysis
  | 0 => a
  | n + 1 =>
    let q := lits.getD k 0
    let v := q / 2
    let lv := level.getD v 0
    if a.seen.get! v == 0 && 0 < lv then
      match a with
      | ⟨seen, heap, lower, used, pending⟩ =>
        let seen := seen.set! v 1
        let heap := heap.bump v amount
        if here ≤ lv then
          gather lits level here amount ⟨seen, heap, lower, used, pending + 1⟩ (k + 1) n
        else gather lits level here amount ⟨seen, heap, lower.push q, used, pending⟩ (k + 1) n
    else gather lits level here amount a (k + 1) n

/-- The position of the newest marked literal below `i` on the trail. -/
def newest (trail : Array Nat) (seen : ByteArray) : (i : Nat) → Nat
  | 0 => 0
  | i + 1 => if seen.get! (trail.getD i 0 / 2) == 1 then i else newest trail seen i

/-- Resolves `clause` with the reasons of its newest literals, from position `i` of the trail
downwards, until one literal of the current level is left. Returns that literal. -/
def resolve (c : Clauses) (t : Trail) (amount : Nat) (a : Analysis) (clause i : Nat) :
    (fuel : Nat) → Analysis × Nat
  | 0 => (a, 0)
  | fuel + 1 =>
    let a := gather c.lits t.level t.limits.size amount a (c.start.getD clause 0)
      (c.len.getD clause 0)
    let i := newest t.lits a.seen i
    let p := t.lits.getD i 0
    match a with
    | ⟨seen, heap, lower, used, pending⟩ =>
      if pending ≤ 1 then (⟨seen, heap, lower, used, 0⟩, p)
      else
        resolve c t amount ⟨seen.set! (p / 2) 2, heap, lower, used.push (p / 2), pending - 1⟩
          (t.reason.getD (p / 2) 0) i fuel

/-- Whether a literal follows from the other marked ones by its own reason. -/
def covered (c : Clauses) (t : Trail) (seen : ByteArray) (v : Nat) : Bool :=
  let r := t.reason.getD v 0
  let base := c.start.getD r 0
  r != 0 && (List.range' base (c.len.getD r 0)).all fun k =>
    let x := c.lits.getD k 0 / 2
    x == v || seen.get! x == 1 || t.level.getD x 0 == 0

/-- Learns from a violated clause and returns to the level where the lesson applies. -/
def learn (s : Search) (conflict : Nat) : Search :=
  match s with
  | ⟨clauses, trail, heap, phase, seen, amount, fixed, steps⟩ =>
    match resolve clauses trail amount ⟨seen, heap, #[], #[], 0⟩ conflict trail.lits.size
      (trail.lits.size + 1) with
    | (⟨seen, heap, lower, used, _⟩, top) =>
      let dropped := lower.filter fun q => covered clauses trail seen (q / 2)
      let kept := lower.filter fun q => !covered clauses trail seen (q / 2)
      let used := used ++ dropped.map (· / 2)
      -- the reasons become unit in the order of the trail
      let rank := trail.rank
      let ordered := used.qsort fun a b => rank.getD a 0 < rank.getD b 0
      let hints := (ordered.map fun v => trail.reason.getD v 0).push conflict
      let seen := seen.set! (top / 2) 0
      let seen := lower.foldl (fun seen q => seen.set! (q / 2) 0) seen
      let seen := used.foldl (fun seen v => seen.set! v 0) seen
      -- the literal of the highest remaining level is watched beside the asserted one
      let levelOf := fun q => trail.level.getD (q / 2) 0
      let best := (List.range kept.size).foldl
        (fun best k => if levelOf (kept.getD best 0) < levelOf (kept.getD k 0) then k else best) 0
      let back := if kept.size = 0 then 0 else levelOf (kept.getD best 0)
      let kept := if kept.size = 0 then kept
        else (kept.set! 0 (kept.getD best 0)).set! best (kept.getD 0 0)
      let ls := #[flip top] ++ kept
      let id := clauses.start.size
      let s : Search := ⟨clauses, trail, heap, phase, seen, amount, fixed, steps⟩
      match (s.backtrack back).derive ls hints true with
      | ⟨clauses, trail, heap, phase, seen, amount, fixed, steps⟩ =>
        let trail := trail.assign (flip top) id
        if amount < 1 <<< 60 then
          ⟨clauses, trail, heap, phase, seen, amount + amount / 16 + 1, fixed, steps⟩
        else ⟨clauses, trail, heap.shrink, phase, seen, (amount >>> 40) + 1, fixed, steps⟩

/-- The most active open variable, and the heap without the assigned ones above it. -/
def mostActive (value : ByteArray) (heap : Heap) : (fuel : Nat) → Option Nat × Heap
  | 0 => (none, heap)
  | fuel + 1 =>
    if heap.items.size = 0 then (none, heap)
    else
      let v := heap.items.getD 0 0
      if value.get! (2 * v) == 0 then (some v, heap.pop) else mostActive value heap.pop fuel

/-- Decides the next literal: the variables of `order` come first, in that order and false first;
then the most active one with the sign that it had last. The second part is whether there was an
open variable. -/
def decide (s : Search) (order : Array Nat) : Search × Bool :=
  match order.find? fun v => s.valueOf (2 * v) == 0 with
  | some v =>
    match s with
    | ⟨clauses, trail, heap, phase, seen, amount, fixed, steps⟩ =>
      (⟨clauses, trail.decision.assign (2 * v + 1) 0, heap, phase, seen, amount, fixed, steps⟩,
        true)
  | none =>
    match s with
    | ⟨clauses, trail, heap, phase, seen, amount, fixed, steps⟩ =>
      match mostActive trail.value heap (heap.items.size + 1) with
      | (none, heap) => (⟨clauses, trail, heap, phase, seen, amount, fixed, steps⟩, false)
      | (some v, heap) =>
        let l := if phase.get! v == 1 then 2 * v else 2 * v + 1
        (⟨clauses, trail.decision.assign l 0, heap, phase, seen, amount, fixed, steps⟩, true)

/-- The main loop. `left` counts the conflicts until the next restart. -/
def loop (s : Search) (order : Array Nat) (left restart : Nat) : (fuel : Nat) → Outcome
  | 0 => .undecided
  | fuel + 1 =>
    match s.propagate with
    | (s, 0) =>
      let s := if s.trail.limits.size = 0 then s.fixUnits (s.trail.lits.size + 1) else s
      match s.decide order with
      | (s, true) => loop s order left restart fuel
      | (s, false) => .model ((Array.range s.phase.size).map fun v => s.valueOf (2 * v) == 1)
    | (s, conflict) =>
      if s.trail.limits.size = 0 then
        let s := s.fixUnits (s.trail.lits.size + 1)
        .derivation (s.steps.push (.addEmpty s.clauses.start.size #[conflict]))
      else if left = 0 then
        loop ((s.learn conflict).backtrack 0) order restart (restart + restart / 8) fuel
      else loop (s.learn conflict) order (left - 1) restart fuel

/-- A state over `n` variables with no clauses; number 0 is taken. -/
def init (n : Nat) : Search where
  clauses := { lits := #[], start := #[0], len := #[0], watches := Array.replicate (2 * n) #[] }
  trail :=
    { value := ⟨Array.replicate (2 * n) 0⟩, level := Array.replicate n 0
      reason := Array.replicate n 0, rank := Array.replicate n 0, lits := #[], limits := #[]
      head := 0 }
  heap :=
    { items := Array.range n, place := (Array.range n).map (· + 1), weight := Array.replicate n 0 }
  phase := ⟨Array.replicate n 0⟩
  seen := ⟨Array.replicate n 0⟩
  amount := 1
  fixed := 0
  steps := #[]

/-- Adds a clause of the formula. The second part is the number of a clause that is violated
already, 0 if there is none. -/
def addInput (s : Search) (c : CNF.Clause Nat) : Search × Nat :=
  let ls := (c.map fun (v, positive) => if positive then 2 * v else 2 * v + 1).eraseDups
  match s with
  | ⟨clauses, trail, heap, phase, seen, amount, fixed, steps⟩ =>
    let id := clauses.start.size
    if ls.any fun l => ls.contains (flip l) then
      (⟨clauses.add #[] false, trail, heap, phase, seen, amount, fixed, steps⟩, 0)
    else
      match ls with
      | [] => (⟨clauses.add #[] false, trail, heap, phase, seen, amount, fixed, steps⟩, id)
      | [l] =>
        let held := trail.value.get! l
        let trail := if held == 0 then trail.assign l id else trail
        (⟨clauses.add #[l] false, trail, heap, phase, seen, amount, fixed, steps⟩,
          if held == 2 then id else 0)
      | _ => (⟨clauses.add ls.toArray true, trail, heap, phase, seen, amount, fixed, steps⟩, 0)

end Search

/-- The number of variables of a formula, counting up to the highest one that it names. -/
def numVars (f : CNF Nat) : Nat :=
  f.clauses.foldl (fun n c => c.foldl (fun n l => max n (l.1 + 1)) n) 0

/-- Searches for a model of `f`. The variables of `order` are tried first and as false, so a model
found has the lexicographically smallest values along `order`. -/
def search (f : CNF Nat) (order : Array Nat) (budget : Nat) : Outcome :=
  match f.clauses.foldl
    (fun (s, conflict) c =>
      match s.addInput c with
      | (s, bad) => (s, if conflict = 0 then bad else conflict))
    (Search.init (order.foldl (fun n v => max n (v + 1)) (numVars f)), 0) with
  | (s, 0) => s.loop order 100 100 budget
  | (s, conflict) => .derivation #[.addEmpty s.clauses.start.size #[conflict]]

end SymExec.Sat
