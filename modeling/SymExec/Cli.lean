import SymExec.Cli.Options
import SymExec.Config.File
import SymExec.Explore
import SymExec.Json.Reader
import SymExec.Program.Loader

/-!
# The command line

Explores the paths of a program file and prints a line for each: the input in hexadecimal and how
the path ended.
-/
namespace SymExec.Cli

/-- What a run of the command leaves behind. -/
structure Transcript where
  exit : Nat
  out : String := ""
  err : String := ""
  deriving DecidableEq, Repr

def Transcript.error (message : String) : Transcript :=
  { exit := 3, err := "Error: " ++ message ++ "\n" }

/-- Why a run ends before its first path: with a message, or without any rule for it. -/
inductive Trouble where
  | message (text : String)
  | failure (cause : Failure)

def Trouble.ofMessage? (message? : Option String) : Trouble :=
  match message? with
  | some m => .message m
  | none => .failure .crash

def loadProgram (path : String) : Source → Except Trouble Program
  | .missing => .error (.message (Source.missingMessage path))
  | .directory => .error (.message (Source.directoryMessage path))
  | .text content =>
    match Json.read content with
    | .error (.malformed fault pos) =>
      .error (.message (path ++ ": invalid JSON: " ++ fault.located pos content.toList))
    | .error (.numeral e) => .error (.message e.message)
    | .ok raw => (Program.load raw true).mapError fun e => .ofMessage? e.message?

def loadConfig (o : Options) (find : String → Source) : Except Trouble Config := do
  let config ← match o.config with
    | none => pure {}
    | some path => (Config.ofSource path (find path)).mapError fun e => .ofMessage? e.message?
  return { config with inputLength := o.inputLength.getD config.inputLength }

def target (o : Options) (find : String → Source) : Except Trouble Target := do
  let config ← loadConfig o find
  let program ← loadProgram o.program (find o.program)
  let make := if o.symbolic then Target.ofSymbolic else Target.ofMain
  (make program o.entry config).mapError fun
    | .error e => .message e.message
    | cause => .failure cause

def reportText (verbose : Bool) (r : Report) : String :=
  let bytes := String.join (r.input.map fun b => Text.hex 2 b.toNat)
  let leaked := match r.leaked with
    | some (n + 1) => s!"\t(leaked {n + 1} bytes)"
    | _ => ""
  let stack := if verbose then r.outcome.stack.map fun frame => "    " ++ frame ++ "\n" else []
  (if bytes.isEmpty then "-" else bytes) ++ "\t" ++ r.outcome.text ++ leaked ++ "\n" ++
    String.join stack

def summary (s : Stats) : String :=
  s!"{s.paths} paths, {s.failures} failures, {s.forks} forks, {s.steps} steps\n"

def transcript (o : Options) (x : Exploration) : Except Failure Transcript :=
  match x.fault with
  | some cause => .error cause
  | none => .ok {
      exit := if x.reports.all fun r => r.outcome.isSuccess then 0 else 1
      out := String.join (x.reports.map (reportText o.verbose))
      err := if o.verbose then summary x.stats else "" }

/-- Runs the command on the files that are found under their paths. -/
def run (o : Options) (find : String → Source) : Except Failure Transcript :=
  match find o.program with
  | .missing => .ok (.error ("file not found: " ++ o.program))
  | _ =>
    match target o find with
    | .error (.message m) => .ok (.error m)
    | .error (.failure cause) => .error cause
    | .ok t => transcript o (t.explore o.maxPaths)

end SymExec.Cli
