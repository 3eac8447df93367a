import SymExec.Source
import SymExec.Text.Numeral

/-!
# Options of the command line

One operand names the program. Options may stand before and behind it, be cut to a beginning that
no other option has, and carry their value in the same word after an equals sign or in the next
word. Every word after two dashes is an operand.
-/
namespace SymExec.Cli

structure Options where
  program : String
  entry : String := "main"
  symbolic : Bool := false
  inputLength : Option Int := none
  config : Option String := none
  maxPaths : Option Int := none
  verbose : Bool := false
  deriving DecidableEq, Repr

/-- Why the words of a command line are no request to run a program. -/
inductive Refusal where
  /-- A description of the options is asked for. -/
  | help
  | usage
  deriving DecidableEq, Repr

inductive Flag where
  | help | entry | symbolic | inputLength | config | maxPaths | verbose
  deriving DecidableEq, Repr

namespace Flag

def names : List (String × Flag) :=
  [("-h", help), ("--help", help), ("--entry", entry), ("--symbolic", symbolic),
    ("--input-len", inputLength), ("--config", config), ("--max-paths", maxPaths),
    ("--verbose", verbose)]

def takesValue : Flag → Bool
  | entry | inputLength | config | maxPaths => true
  | help | symbolic | verbose => false

end Flag

/-! ## Words -/

inductive Word where
  | operand (text : String)
  | separator
  /-- An option, and the text behind its name in the word. Behind a `short` name, which is a dash
  and one letter, the text may be more letters. -/
  | option (flag : Flag) (short : Bool) (value : Option String)
  | unknown
  deriving DecidableEq, Repr

/-- The part before the first equals sign and the part behind it. -/
def splitValue (s : String) : String × Option String :=
  match s.splitOn "=" with
  | name :: rest => (name, if rest.isEmpty then none else some ("=".intercalate rest))
  | [] => (s, none)

/-- Whether a word is a negative number: digits, or digits after a point. A line break may end
it. -/
def isNegativeNumber (s : String) : Bool :=
  let isDigit := fun c => (Text.digit? c).isSome
  let isEnd := fun cs : List Char => cs.isEmpty || cs == ['\n']
  match s.toList with
  | '-' :: cs =>
    match cs.dropWhile isDigit with
    | '.' :: fraction => fraction.head?.any isDigit && isEnd (fraction.dropWhile isDigit)
    | rest => cs.head?.any isDigit && isEnd rest
  | _ => false

/-- The options that a word may mean, if it is not the exact name of one. -/
def candidates (s : String) : List Word :=
  if s.startsWith "--" then
    let (name, value) := splitValue s
    (Flag.names.filter fun (full, _) => full.startsWith name).map fun (_, flag) =>
      .option flag false value
  else
    let cs := s.toList
    (Flag.names.filter fun (full, _) => full = String.ofList (cs.take 2)).map fun (_, flag) =>
      .option flag true (some (String.ofList (cs.drop 2)))

/-- What a word is, if it does not follow two dashes. -/
def classify (s : String) : Except Refusal Word :=
  let (name, value) := splitValue s
  let single := s.length = 1
  let option := fun name value => (Flag.names.lookup name).map fun flag =>
    Word.option flag (name == "-h") value
  let exact := option s none
  let split := option name value
  if !s.startsWith "-" then .ok (.operand s)
  else
    match exact, split with
    | some word, _ => .ok word
    | none, split =>
      if single then .ok (.operand s)
      else
        match split, candidates s with
        | some word, _ => .ok word
        | none, [word] => .ok word
        | none, [] => .ok (if isNegativeNumber s || s.contains ' ' then .operand s else .unknown)
        | none, _ => .error .usage

def words : List String → Except Refusal (List Word)
  | [] => .ok []
  | s :: rest =>
    if s = "--" then .ok (.separator :: rest.map .operand)
    else do return (← classify s) :: (← words rest)

/-! ## Requests -/

/-- A request as far as it has been read. -/
structure Request where
  /-- The options, with no program named yet if this is not set. -/
  options : Options := { program := "" }
  named : Bool := false
  /-- Whether a word was met that has no meaning. -/
  surplus : Bool := false

def Request.switchOn (r : Request) (flag : Flag) : Request :=
  match flag with
  | .symbolic => { r with options := { r.options with symbolic := true } }
  | .verbose => { r with options := { r.options with verbose := true } }
  | _ => r

def Request.assign (r : Request) (flag : Flag) (value : String) : Except Refusal Request :=
  let number := (Text.integer value).mapError fun _ => Refusal.usage
  let changed := fun (o : Options) => { r with options := o }
  match flag with
  | .entry => .ok (changed { r.options with entry := value })
  | .config => .ok (changed { r.options with config := some (Source.normalPath value) })
  | .inputLength => do return changed { r.options with inputLength := some (← number) }
  | .maxPaths => do return changed { r.options with maxPaths := some (← number) }
  | _ => .ok r

def Request.name (r : Request) (program : String) : Request :=
  { r with options := { r.options with program := Source.normalPath program }, named := true }

/-- What the text behind `-h` comes to. Each of its letters has to be an option of its own, and `h`
is the only one. -/
def letters (text : String) : Refusal :=
  if text ≠ "" ∧ text.toList.all (· == 'h') then .help else .usage

/-- Reads words one after the other. Two dashes may stand right before the program or, as `behind`
says, right behind it. -/
def Request.take (r : Request) (behind : Bool) : List Word → Except Refusal Request
  | [] => .ok r
  | .operand s :: rest =>
    if r.named then { r with surplus := true }.take false rest else (r.name s).take true rest
  | .separator :: rest => { r with surplus := r.surplus || (r.named && !behind) }.take false rest
  | .unknown :: rest => { r with surplus := true }.take false rest
  | .option flag short value :: rest =>
    match flag.takesValue, value, rest with
    | true, some v, rest => do (← r.assign flag v).take false rest
    | true, none, .operand v :: rest => do (← r.assign flag v).take false rest
    | true, none, _ => .error .usage
    | false, none, rest => if flag = .help then .error .help else (r.switchOn flag).take false rest
    | false, some v, _ => .error (if short then letters v else .usage)

def Options.parse (args : List String) : Except Refusal Options := do
  let r ← Request.take {} false (← words args)
  if r.named && !r.surplus then return r.options else throw .usage

end SymExec.Cli
