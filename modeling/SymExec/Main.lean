import SymExec.Cli

/-!
# The program

Reads the files that the command line names and prints what the run says.
-/
namespace SymExec

def usageText : String :=
  "usage: symexec program [--entry NAME] [--symbolic] [--input-len N] [--config FILE] " ++
    "[--max-paths N] [--verbose]"

def findSource (path : String) : IO Source := do
  try
    return .ofText (← IO.FS.readFile path)
  catch
    | .inappropriateType .. => return .directory
    | _ => return .missing

def runCommand (o : Cli.Options) : IO UInt32 := do
  let paths := o.program :: o.config.toList
  let sources ← paths.mapM fun path => do return (path, ← findSource path)
  match Cli.run o fun path => (sources.lookup path).getD .missing with
  | .ok t =>
    IO.print t.out
    IO.eprint t.err
    return UInt32.ofNat t.exit
  | .error cause =>
    IO.eprintln (match cause with
      | .error e => e.message
      | .numeral e => e.message
      | .crash => "no rule covers a value of this program")
    return 1

end SymExec

open SymExec in
def main (args : List String) : IO UInt32 := do
  match Cli.Options.parse args with
  | .ok o => runCommand o
  | .error .help =>
    IO.println usageText
    return 0
  | .error .usage =>
    IO.eprintln usageText
    return 2
