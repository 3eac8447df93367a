import SymExec.Yaml.Error

/-!
# Timestamps

A day as year, month and day, or a moment with a time of day, a fraction of a second, and an offset
from universal time.
-/
namespace SymExec.Yaml

structure ClockFields where
  hour : List Char
  minute : List Char
  second : List Char
  fraction : List Char := []
  /-- The minutes ahead of universal time. -/
  offset : Option Int := none

structure Timestamp where
  year : List Char
  month : List Char
  day : List Char
  clock : Option ClockFields := none

namespace Timestamp

/-- Between `least` and `most` digits, as many as there are, and what follows. -/
def digits? (least most : Nat) (cs : List Char) : Option (List Char × List Char) :=
  let found := (cs.take most).takeWhile Char.isDigit
  if least ≤ found.length then some (found, cs.drop found.length) else none

def after? (c : Char) : List Char → Option (List Char)
  | d :: cs => if d = c then some cs else none
  | [] => none

def value (digits : List Char) : Nat := Text.digitsValue digits

def isBlank (c : Char) : Bool := c == ' ' || c == '\t'

/-- An offset at the end of a timestamp, if there is one. -/
def offset? (cs : List Char) : Option (Option Int) :=
  if cs.isEmpty then some none
  else
    match cs.dropWhile isBlank with
    | ['Z'] => some (some 0)
    | sign :: rest =>
      if sign = '+' ∨ sign = '-' then do
        let (hours, rest) ← digits? 1 2 rest
        let minutes ←
          if rest.isEmpty then some []
          else do
            let (minutes, rest) ← digits? 2 2 (← after? ':' rest)
            if rest.isEmpty then some minutes else none
        let ahead : Int := 60 * value hours + value minutes
        return some (if sign = '-' then -ahead else ahead)
      else none
    | [] => none

def clock? (cs : List Char) : Option ClockFields := do
  let (hour, rest) ← digits? 1 2 cs
  let (minute, rest) ← digits? 2 2 (← after? ':' rest)
  let (second, rest) ← digits? 2 2 (← after? ':' rest)
  let (fraction, rest) := match rest with
    | '.' :: rest => (rest.takeWhile Char.isDigit, rest.dropWhile Char.isDigit)
    | rest => ([], rest)
  return ⟨hour, minute, second, fraction, ← offset? rest⟩

/-- The parts of a timestamp. Between day and time there is a letter or a blank. -/
def parse? (cs : List Char) : Option Timestamp := do
  let (year, rest) ← digits? 4 4 cs
  let (month, rest) ← digits? 1 2 (← after? '-' rest)
  let (day, rest) ← digits? 1 2 (← after? '-' rest)
  match rest with
  | [] => return ⟨year, month, day, none⟩
  | c :: more =>
    if c = 'T' ∨ c = 't' then return ⟨year, month, day, some (← clock? more)⟩
    else if isBlank c then return ⟨year, month, day, some (← clock? (more.dropWhile isBlank))⟩
    else none

/-- Whether a timestamp is recognised without a tag: a day alone has all its digits. -/
def isPlain (t : Timestamp) : Bool :=
  t.clock.isSome || (t.month.length == 2 && t.day.length == 2)

/-- The millionths of a second of a fraction, further digits cut off. -/
def micros (fraction : List Char) : Nat := value ((fraction ++ List.replicate 6 '0').take 6)

end Timestamp
end SymExec.Yaml
