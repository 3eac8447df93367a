import SymExec.Config
import SymExec.Yaml.Value

/-!
# Configuration files

A configuration file is a YAML document that is a mapping. Without a file, or with an empty
document, everything has its default.
-/
namespace SymExec.Config

/-- How deep the mappings of a configuration nest: the limits are inside of it, and what is inside
of them is no mapping. -/
def depth : Nat := 2

def ofSource (path : String) : Source → Except ConfigError Config
  | .missing => .ok {}
  | .directory => .error (.directory path)
  | .text content =>
    match Yaml.read depth content with
    | .error cause => .error (.unreadable cause)
    | .ok (.mapping entries) => ofSetting (.mapping entries)
    | .ok v => if v.truthy then .error (.notTopMapping path) else .ok {}

end SymExec.Config
