import SymExec.Json

/-!
# Reading JSON

`Json.read` takes a whole text to a value, or says what is wrong first and where. Besides the
standard, `NaN`, `Infinity` and `-Infinity` are read as numbers.
-/
namespace SymExec.Json

inductive Fault where
  | value | name | colon | comma | control | unterminated | escape | unicodeEscape | extra | mark
  deriving DecidableEq, Repr

def Fault.message : Fault → String
  | value => "Expecting value"
  | name => "Expecting property name enclosed in double quotes"
  | colon => "Expecting ':' delimiter"
  | comma => "Expecting ',' delimiter"
  | control => "Invalid control character at"
  | unterminated => "Unterminated string starting at"
  | escape => "Invalid \\escape"
  | unicodeEscape => "Invalid \\uXXXX escape"
  | extra => "Extra data"
  | mark => "Unexpected UTF-8 BOM (decode using utf-8-sig)"

inductive ReadError where
  | malformed (fault : Fault) (pos : Nat)
  | numeral (cause : Text.NumeralError)
  deriving DecidableEq, Repr

/-- The message of a fault: what, and in which line and column. -/
def Fault.located (fault : Fault) (pos : Nat) (text : List Char) : String :=
  let before := text.take pos
  let line := (before.filter (· == '\n')).length + 1
  let column := (before.reverse.takeWhile (· != '\n')).length + 1
  s!"{fault.message}: line {line} column {column} (char {pos})"

/-- What is left of a text, and how many characters were read. -/
structure Cursor where
  rest : List Char
  pos : Nat

def fault {α : Type} (f : Fault) (pos : Nat) : Except ReadError (α × Cursor) :=
  .error (.malformed f pos)

def isSpace (c : Char) : Bool := c == ' ' || c == '\t' || c == '\n' || c == '\r'

def Cursor.skip (c : Cursor) : Cursor :=
  ⟨c.rest.dropWhile isSpace, c.pos + (c.rest.takeWhile isSpace).length⟩

/-! ## Strings -/

def hexDigit? (c : Char) : Option Nat :=
  if c.isDigit then some (c.toNat - 48)
  else if 'a' ≤ c ∧ c ≤ 'f' then some (c.toNat - 87)
  else if 'A' ≤ c ∧ c ≤ 'F' then some (c.toNat - 55)
  else none

def hex4? (a b c d : Char) : Option Nat := do
  let w ← hexDigit? a
  let x ← hexDigit? b
  let y ← hexDigit? c
  let z ← hexDigit? d
  return ((w * 16 + x) * 16 + y) * 16 + z

def simpleEscape? : Char → Option Char
  | '"' => some '"'
  | '\\' => some '\\'
  | '/' => some '/'
  | 'b' => some '\x08'
  | 'f' => some '\x0c'
  | 'n' => some '\n'
  | 'r' => some '\r'
  | 't' => some '\t'
  | _ => none

/-- A code unit as a character, or half of a pair alone. -/
def unitChar (n : Nat) : Char :=
  if 0xd800 ≤ n ∧ n < 0xe000 then Text.ofHalf n else Char.ofNat n

/-- Reads to the closing quote. `start` is the place of the opening one. -/
def stringBody (start : Nat) :
    List Char → (pos : Nat) → (done : List Char) → Except ReadError (String × Cursor)
  | [], _, _ => fault .unterminated start
  | '"' :: cs, pos, done => .ok (String.ofList done.reverse, ⟨cs, pos + 1⟩)
  | ['\\'], _, _ => fault .unterminated start
  | '\\' :: 'u' :: a :: b :: c :: d :: cs, pos, done =>
    match cs, hex4? a b c d with
    | [], _ | _, none => fault .unicodeEscape (pos + 1)
    | cs, some n =>
      if 0xd800 ≤ n ∧ n < 0xdc00 ∧ 6 < cs.length then
        match cs with
        | '\\' :: 'u' :: e :: f :: g :: h :: cs' =>
          match hex4? e f g h with
          | none => fault .unicodeEscape (pos + 7)
          | some m =>
            if 0xdc00 ≤ m ∧ m < 0xe000 then
              let joined := 0x10000 + (n - 0xd800) * 0x400 + (m - 0xdc00)
              stringBody start cs' (pos + 12) (Char.ofNat joined :: done)
            else
              stringBody start ('\\' :: 'u' :: e :: f :: g :: h :: cs') (pos + 6)
                (unitChar n :: done)
        | cs => stringBody start cs (pos + 6) (unitChar n :: done)
      else stringBody start cs (pos + 6) (unitChar n :: done)
  | '\\' :: 'u' :: _, pos, _ => fault .unicodeEscape (pos + 1)
  | '\\' :: c :: cs, pos, done =>
    match simpleEscape? c with
    | some x => stringBody start cs (pos + 2) (x :: done)
    | none => fault .escape pos
  | c :: cs, pos, done =>
    if c.toNat < 32 then fault .control pos else stringBody start cs (pos + 1) (c :: done)
termination_by cs => cs.length

/-! ## Numbers -/

def takeDigits (cs : List Char) : List Char × List Char :=
  (cs.takeWhile Char.isDigit, cs.dropWhile Char.isDigit)

/-- The whole part: a zero alone, or digits that start with another one. -/
def takeWhole? : List Char → Option (List Char × List Char)
  | '0' :: cs => some (['0'], cs)
  | cs => match takeDigits cs with
    | ([], _) => none
    | found => some found

def takeFraction : List Char → List Char × List Char
  | '.' :: cs => match takeDigits cs with
    | ([], _) => ([], '.' :: cs)
    | found => found
  | cs => ([], cs)

/-- An exponent: its value, what was read of it, and the rest. -/
def takeExponent (cs : List Char) : Option (Int × List Char) :=
  match cs with
  | c :: r =>
    if c == 'e' || c == 'E' then
      let (negative, r) := Text.takeSign r
      match takeDigits r with
      | ([], _) => none
      | (ds, rest) =>
        let n : Int := Text.digitsValue ds
        some (if negative then -n else n, rest)
    else none
  | [] => none

def number (negative : Bool) (start : Nat) (c : Cursor) : Except ReadError (Json × Cursor) :=
  match takeWhole? c.rest with
  | none => fault .value start
  | some (whole, afterWhole) =>
    let (fraction, afterFraction) := takeFraction afterWhole
    let exponent := takeExponent afterFraction
    let rest := match exponent with
      | some (_, r) => r
      | none => afterFraction
    let next : Cursor := ⟨rest, c.pos + (c.rest.length - rest.length)⟩
    if fraction.isEmpty && exponent.isNone then
      if Text.maxDigits < whole.length then .error (.numeral (.tooLong whole.length))
      else
        let n : Int := Text.digitsValue whole
        .ok (.int (if negative then -n else n), next)
    else
      let e := (exponent.map Prod.fst).getD 0 - fraction.length
      let pattern := Binary.double.ofDecimal negative (Text.digitsValue (whole ++ fraction)) e
      .ok (.float (BitVec.ofNat 64 pattern), next)

/-! ## Values -/

def word? (c : Cursor) : Option (Json × Cursor) :=
  let words : List (String × Json) := [
    ("null", .null), ("true", .bool true), ("false", .bool false),
    ("NaN", .float (BitVec.ofNat 64 Binary.double.defaultNaN)),
    ("Infinity", .float (BitVec.ofNat 64 Binary.double.infinity)),
    ("-Infinity",
      .float (BitVec.ofNat 64 (Binary.double.withSign true Binary.double.infinity)))]
  words.findSome? fun (w, v) =>
    let ws := w.toList
    if ws.isPrefixOf c.rest then some (v, ⟨c.rest.drop ws.length, c.pos + ws.length⟩) else none

mutual

/-- Reads a value. Every value takes at least one character, so the length of the text is enough
fuel. -/
def value (c : Cursor) : (fuel : Nat) → Except ReadError (Json × Cursor)
  | 0 => fault .value c.pos
  | fuel + 1 =>
    match word? c with
    | some found => .ok found
    | none =>
      match c.rest with
      | '"' :: cs => do
        let (s, c) ← stringBody c.pos cs (c.pos + 1) []
        return (.str s, c)
      | '[' :: cs =>
        let c := Cursor.skip ⟨cs, c.pos + 1⟩
        match c.rest with
        | ']' :: cs => .ok (.arr [], ⟨cs, c.pos + 1⟩)
        | _ => items c [] fuel
      | '\x7b' :: cs =>
        let c := Cursor.skip ⟨cs, c.pos + 1⟩
        match c.rest with
        | '\x7d' :: cs => .ok (.obj [], ⟨cs, c.pos + 1⟩)
        | _ => members c [] fuel
      | '-' :: cs => number true c.pos ⟨cs, c.pos + 1⟩
      | _ => number false c.pos c

def items (c : Cursor) (done : List Json) : (fuel : Nat) → Except ReadError (Json × Cursor)
  | 0 => fault .value c.pos
  | fuel + 1 => do
    let (v, c) ← value c fuel
    let c := c.skip
    match c.rest with
    | ']' :: cs => return (.arr (v :: done).reverse, ⟨cs, c.pos + 1⟩)
    | ',' :: cs => items (Cursor.skip ⟨cs, c.pos + 1⟩) (v :: done) fuel
    | _ => fault .comma c.pos

def members (c : Cursor) (done : List (String × Json)) :
    (fuel : Nat) → Except ReadError (Json × Cursor)
  | 0 => fault .value c.pos
  | fuel + 1 =>
    match c.rest with
    | '"' :: cs => do
      let (key, c) ← stringBody c.pos cs (c.pos + 1) []
      let c := c.skip
      match c.rest with
      | ':' :: cs =>
        let (v, c) ← value (Cursor.skip ⟨cs, c.pos + 1⟩) fuel
        let c := c.skip
        let done := insert key v done
        match c.rest with
        | '\x7d' :: cs => return (.obj done, ⟨cs, c.pos + 1⟩)
        | ',' :: cs => members (Cursor.skip ⟨cs, c.pos + 1⟩) done fuel
        | _ => fault .comma c.pos
      | _ => fault .colon c.pos
    | _ => fault .name c.pos

end

def read (text : String) : Except ReadError Json := do
  let cs := text.toList
  if cs.head? = some (Char.ofNat 0xfeff) then throw (.malformed .mark 0)
  let (v, c) ← value (Cursor.skip ⟨cs, 0⟩) (cs.length + 1)
  let c := c.skip
  if c.rest.isEmpty then return v else throw (.malformed .extra c.pos)

def ReadError.message (text : String) : ReadError → String
  | malformed fault pos => fault.located pos text.toList
  | numeral cause => cause.message

end SymExec.Json
