import SymExec.Text.Quoted

/-!
# Code points

An escape can name a surrogate, which is a code point and no character. What holds one is a list of
code points that is shown as text is, each surrogate by its number.
-/
namespace SymExec.Text

/-- The characters of code points, unless there is a surrogate. -/
def charsOfPoints? (points : List Nat) : Option (List Char) :=
  points.mapM fun n => if n.isValidChar then some (Char.ofNat n) else none

def quotedPoint (quote : Char) (n : Nat) : String :=
  if n.isValidChar then quotedChar quote (Char.ofNat n) else "\\u" ++ hex 4 n

def quotedPoints (points : List Nat) : String :=
  let quote := if points.contains 39 && !points.contains 34 then '"' else '\''
  String.singleton quote ++ String.join (points.map (quotedPoint quote)) ++ String.singleton quote

def quotedByte (quote : Char) (b : UInt8) : String :=
  if b < 0x80 then quotedChar quote (Char.ofNat b.toNat) else "\\x" ++ hex 2 b.toNat

/-- Bytes between quotes, with a mark ahead that tells them from text. -/
def quotedBytes (bytes : List UInt8) : String :=
  let quote := if bytes.contains 39 && !bytes.contains 34 then '"' else '\''
  "b" ++ String.singleton quote ++ String.join (bytes.map (quotedByte quote)) ++
    String.singleton quote

end SymExec.Text
