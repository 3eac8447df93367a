import SymExec.Machine.Step

/-!
# Exploration

All feasible paths of an entry function are followed in turn: the machines wait in a queue, the
first one takes one step, and what the step leads to joins the queue at its end. A path that ends is
reported with an input that drives the program down that path. An error ends its own path only.
-/
namespace SymExec

inductive Outcome where
  | success
  /-- An error, and where the frames stood, the innermost one first. -/
  | failure (error : EvalError) (stack : List String)

namespace Outcome

def isSuccess : Outcome → Bool
  | success => true
  | failure _ _ => false

def text : Outcome → String
  | success => "ok"
  | failure e _ => e.kind.label ++ ": " ++ e.message

def stack : Outcome → List String
  | success => []
  | failure _ stack => stack

end Outcome

structure Report where
  input : List (BitVec 8)
  outcome : Outcome
  /-- The bytes still allocated when the path returned normally. -/
  leaked : Option Nat := none

structure Stats where
  paths : Nat := 0
  failures : Nat := 0
  forks : Nat := 0
  steps : Nat := 0
  infeasibleForks : Nat := 0
  /-- Whether exploration ended because no more reports were wanted. -/
  stopped : Bool := false
  deriving DecidableEq, Repr

/-! ## Where exploration starts -/

/-- A machine at the start of its entry function. -/
structure Target where
  start : Machine
  /-- The length of reported inputs; without one, all input bytes are reported. -/
  inputLength : Option Int := none

namespace Target

/-- The entry function, which has no result. -/
def entry (program : Program) (name : String) : Except EvalError Function :=
  match program.find? (.str name) with
  | none => .error (.entryMissing name)
  | some f => if f.returnTy.isUnit then .ok f else .error (.entryReturns name)

def machine (program : Program) (config : Config) : Machine :=
  { program := program, limits := config.limits, memory := { limit := config.limits.memory } }

def started (m : Machine) (act : Run Machine Unit) : Except Failure Machine :=
  match act m with
  | .ok _ m => .ok m
  | .error c _ => .error c.written

/-- A whole program: its entry function takes no arguments. -/
def ofMain (program : Program) (name : String) (config : Config) : Except Failure Target := do
  let f ← entry program name
  if f.argCount ≠ 0 then throw (.error .mainSignature)
  let start ← started (machine program config) (Machine.pushFrame f [] none none)
  return { start := start }

def isBytesRef (ty : Ty) : Bool :=
  match ty.pointee? with
  | some (.slice .u8) => true
  | _ => false

def bytesParam? (f : Function) : Option Ty :=
  match f.paramTypes with
  | ty :: _ => if f.argCount = 1 && isBytesRef ty then some ty else none
  | [] => none

/-- A function of one reference to bytes, which gets a symbolic buffer. -/
def ofSymbolic (program : Program) (name : String) (config : Config) :
    Except Failure Target := do
  let f ← entry program name
  match bytesParam? f with
  | none => throw (.error .targetSignature)
  | some ty =>
    let length := config.inputLength
    let start ← started (machine program config) do
      let p ← Machine.onMemory (Memory.allocateAbstract length 8)
      modify fun m => { m with memory := { m.memory with root := some p.alloc } }
      Machine.pushFrame f [⟨.pair (.ptr p) (.ofInt length), ty⟩] none none
    return { start := start, inputLength := some length }

end Target

/-! ## One step of exploration -/

inductive Expansion where
  | further (forked : Bool) (machines : List Machine)
  | returned (report : Report)
  | failed (report : Report)
  /-- The path forks, but no input of it takes any branch. -/
  | deadEnd (report : Report)
  /-- The whole exploration ends. -/
  | fault (cause : Failure)

namespace Machine

def leastInput (m : Machine) (length : Option Int) : Except EvalError (List (BitVec 8)) :=
  m.memory.store.assignment (length.getD m.memory.store.inputCount)

def failureReport (m : Machine) (length : Option Int) (e : EvalError) : Report where
  input := (m.leastInput length).toOption.getD []
  outcome := .failure e m.trace

def releaseRoot (memory : Memory) : Except Failure Memory :=
  match memory.root with
  | some root =>
    if memory.isLive root then
      match Memory.deallocate (.known root 0) none memory with
      | .ok _ memory => .ok memory
      | .error e _ => .error e
    else .ok memory
  | none => .ok memory

def successReport (m : Machine) (length : Option Int) : Except Failure Report :=
  match m.leastInput length with
  | .error e => .ok { input := [], outcome := .failure e [] }
  | .ok input => do
    let memory ← releaseRoot m.memory
    return { input := input, outcome := .success, leaked := some memory.leaked }

def branch (m : Machine) (b : Branch) : Except Failure Machine :=
  match follow b m with
  | .ok _ m => .ok m
  | .error e _ => .error e

def expand (m : Machine) (length : Option Int) : Expansion :=
  match step m with
  | .error (.error e) m => .failed (m.failureReport length e)
  | .error cause _ => .fault cause
  | .ok .advance m => .further false [m]
  | .ok (.fork []) m => .deadEnd (m.failureReport length .noBranch)
  | .ok (.fork branches) m =>
    match branches.mapM m.branch with
    | .ok machines => .further true machines
    | .error cause => .fault cause
  | .ok .done m =>
    match m.successReport length with
    | .ok report => .returned report
    | .error cause => .fault cause

end Machine

/-! ## The loop -/

structure Exploration where
  reports : List Report := []
  stats : Stats := {}
  /-- Why exploration ended before its time. -/
  fault : Option Failure := none

namespace Exploration

def wanted (most : Option Int) (count : Nat) : Bool :=
  match most with
  | some most => (count : Int) < most
  | none => true

def countStep (x : Exploration) : Exploration :=
  { x with stats := { x.stats with steps := x.stats.steps + 1 } }

def countFork (x : Exploration) (forked : Bool) : Exploration :=
  if forked then { x with stats := { x.stats with forks := x.stats.forks + 1 } } else x

def countDeadEnd (x : Exploration) : Exploration :=
  { x with stats := { x.stats with infeasibleForks := x.stats.infeasibleForks + 1 } }

def deliver (x : Exploration) (most : Option Int) (report : Report) : Exploration :=
  let reports := x.reports ++ [report]
  let failed := if report.outcome.isSuccess then 0 else 1
  { x with
    reports := reports
    stats := { x.stats with
      paths := x.stats.paths + 1
      failures := x.stats.failures + failed
      stopped := !wanted most reports.length } }

/-- Takes an expansion into account, and gives the machines that join the queue. -/
def absorb (x : Exploration) (most : Option Int) : Expansion → Exploration × List Machine
  | .further forked machines => (x.countStep.countFork forked, machines)
  | .returned report => (x.countStep.deliver most report, [])
  | .failed report => (x.deliver most report, [])
  | .deadEnd report => (x.countStep.countDeadEnd.deliver most report, [])
  | .fault cause => ({ x with fault := some cause }, [])

def halted (x : Exploration) : Bool := x.stats.stopped || x.fault.isSome

/-- Explores the machines in a queue. The queue is `front` followed by `back` backwards. Whenever
`front` is used up, `back` takes its place and all machines have taken one step more; this happens
at most `rounds` times. -/
def loop (length most : Option Int) (rounds : Nat) (front back : List Machine) (x : Exploration) :
    Exploration :=
  match front, rounds with
  | m :: front, rounds =>
    let (x, more) := x.absorb most (m.expand length)
    if x.halted then x else loop length most rounds front (more.reverse ++ back) x
  | [], 0 => x
  | [], rounds + 1 =>
    if back.isEmpty then x else loop length most rounds back.reverse [] x
termination_by (rounds, front.length)

end Exploration

/-- Explores all paths, or as many as are wanted. Every step counts against the limit of its path,
so there are no more rounds than the limit allows steps. -/
def Target.explore (t : Target) (most : Option Int) : Exploration :=
  Exploration.loop t.inputLength most (t.start.limits.steps.toNat + 1) [t.start] [] {}

end SymExec
