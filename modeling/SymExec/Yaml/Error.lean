import SymExec.Calendar
import SymExec.Text.Numeral

/-!
# Faults of YAML texts
-/
namespace SymExec.Yaml

inductive Error where
  /-- The text is no YAML document, or has a part that no value is known for. -/
  | malformed
  | codePoint
  | numeral (cause : Text.NumeralError)
  | calendar (cause : Calendar.Error)
  deriving DecidableEq, Repr

/-- A fault in words; there are none for a text that is no document. -/
def Error.message? : Error → Option String
  | malformed => none
  | codePoint => some "chr() arg not in range(0x110000)"
  | numeral cause => some cause.message
  | calendar cause => some cause.message

end SymExec.Yaml
