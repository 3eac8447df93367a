import SymExec.Text.Half
import SymExec.Text.Printable

/-!
# Quoted text

Text in messages stands between single quotes, or between double quotes if it holds a single quote
and no double quote. A backslash, the chosen quote, line feed, carriage return and tab are escaped
by a backslash; a character that is not printable by its number in hexadecimal.
-/
namespace SymExec.Text

/-- `n` in hexadecimal, at least `width` digits long. -/
def hex (width n : Nat) : String :=
  let digits := Nat.toDigits 16 n
  String.ofList (List.replicate (width - digits.length) '0' ++ digits)

def quotedChar (quote c : Char) : String :=
  if c = quote ∨ c = '\\' then String.ofList ['\\', c]
  else if c = '\n' then "\\n"
  else if c = '\r' then "\\r"
  else if c = '\t' then "\\t"
  else if isPrintable c then String.singleton c
  else if point c < 0x100 then "\\x" ++ hex 2 (point c)
  else if point c < 0x10000 then "\\u" ++ hex 4 (point c)
  else "\\U" ++ hex 8 (point c)

def quoteFor (s : String) : Char :=
  if s.contains '\'' && !s.contains '"' then '"' else '\''

def quoted (s : String) : String :=
  let quote := quoteFor s
  s.toList.foldl (fun out c => out ++ quotedChar quote c) (String.singleton quote)
    ++ String.singleton quote

end SymExec.Text
