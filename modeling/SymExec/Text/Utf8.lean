import SymExec.Text.Numeral

/-!
# Text and bytes

Text is written as UTF-8, unless it holds half of a surrogate pair. Bytes are read as UTF-8. Where they
are malformed, the longest part that could have started a character is replaced by one replacement
character.
-/
namespace SymExec.Text

attribute [local instance(2000)] instPowNat

/-- The range of the second byte after a lead byte, and the number of bytes after the lead; none if
no character starts so. -/
def utf8Lead? (lead : Nat) : Option (Nat × Nat × Nat) :=
  if 0xc2 ≤ lead ∧ lead ≤ 0xdf then some (0x80, 0xbf, 1)
  else if lead = 0xe0 then some (0xa0, 0xbf, 2)
  else if lead = 0xed then some (0x80, 0x9f, 2)
  else if 0xe1 ≤ lead ∧ lead ≤ 0xef then some (0x80, 0xbf, 2)
  else if lead = 0xf0 then some (0x90, 0xbf, 3)
  else if 0xf1 ≤ lead ∧ lead ≤ 0xf3 then some (0x80, 0xbf, 3)
  else if lead = 0xf4 then some (0x80, 0x8f, 3)
  else none

/-- The payload of a lead byte that `more` bytes follow. -/
def utf8Payload (lead more : Nat) : Nat := lead % 2 ^ (6 - more)

/-- Reads bytes as text. `want` more bytes of a character are due, the next one in the range from
`low` to `high`; `value` is the payload so far. -/
def decodeUtf8 (want low high value : Nat) : List Nat → List Char
  | [] => if want = 0 then [] else [Char.ofNat 0xfffd]
  | b :: bs =>
    if want = 0 then start b bs
    else if low ≤ b ∧ b ≤ high then
      let value := value * 64 + b % 64
      if want = 1 then Char.ofNat value :: decodeUtf8 0 0 0 0 bs
      else decodeUtf8 (want - 1) 0x80 0xbf value bs
    else Char.ofNat 0xfffd :: start b bs
where
  /-- Reads from a byte at which a character starts. -/
  start (b : Nat) (bs : List Nat) : List Char :=
    if b < 0x80 then Char.ofNat b :: decodeUtf8 0 0 0 0 bs
    else
      match utf8Lead? b with
      | some (low, high, more) => decodeUtf8 more low high (utf8Payload b more) bs
      | none => Char.ofNat 0xfffd :: decodeUtf8 0 0 0 0 bs

def encode (s : String) : Except NumeralError (List UInt8) :=
  match s.toList.span (!isHalf ·) with
  | (_, []) => .ok s.toUTF8.toList
  | (before, c :: cs) =>
    .error (.surrogates (point c) before.length ((c :: cs).takeWhile isHalf).length)

def ofUtf8 (bytes : List Nat) : String := String.ofList (decodeUtf8 0 0 0 0 bytes)

end SymExec.Text
