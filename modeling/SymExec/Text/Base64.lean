/-!
# Base64

Four characters of an alphabet of sixty-four stand for three bytes. Characters outside of the
alphabet are skipped, and padding ends the text where it completes a group of four.
-/
namespace SymExec.Text.Base64

def value? (c : Char) : Option Nat :=
  if 'A' ≤ c ∧ c ≤ 'Z' then some (c.toNat - 65)
  else if 'a' ≤ c ∧ c ≤ 'z' then some (c.toNat - 71)
  else if '0' ≤ c ∧ c ≤ '9' then some (c.toNat + 4)
  else if c = '+' then some 62
  else if c = '/' then some 63
  else none

/-- Decodes the rest of a text. Of the group that is being read, `count` characters are known and
`left` holds the bits of them that are in no byte yet; `pads` are the padding characters since the
last one. A group that is not complete at the end has no meaning. -/
def decodeFrom (count left pads : Nat) : List Char → Option (List UInt8)
  | [] => if count = 0 then some [] else none
  | c :: cs =>
    if c = '=' then
      if 2 ≤ count then
        if 4 ≤ count + pads + 1 then some [] else decodeFrom count left (pads + 1) cs
      else decodeFrom count left pads cs
    else
      match value? c with
      | none => decodeFrom count left pads cs
      | some v =>
        match count with
        | 0 => decodeFrom 1 v 0 cs
        | 1 => (decodeFrom 2 (v % 16) 0 cs).map (UInt8.ofNat (left * 4 + v / 16) :: ·)
        | 2 => (decodeFrom 3 (v % 4) 0 cs).map (UInt8.ofNat (left * 16 + v / 4) :: ·)
        | _ => (decodeFrom 0 0 0 cs).map (UInt8.ofNat (left * 64 + v) :: ·)

def decode? (cs : List Char) : Option (List UInt8) := decodeFrom 0 0 0 cs

end SymExec.Text.Base64
