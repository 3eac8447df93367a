/-!
# Halves of surrogate pairs

An escape can name half of a surrogate pair, which is a code point and no character. In a text a
private character stands for it, from U+10A800 on. Such a text is compared, cut and shown as any
other, but it has no bytes.
-/
namespace SymExec.Text

/-- The character that stands for half of a pair. -/
def ofHalf (n : Nat) : Char := Char.ofNat (n + 0xfd000)

def isHalf (c : Char) : Bool := 0x10a800 ≤ c.toNat && c.toNat < 0x10b000

/-- The code point of a character, or the one that it stands for. -/
def point (c : Char) : Nat := if isHalf c then c.toNat - 0xfd000 else c.toNat

end SymExec.Text
