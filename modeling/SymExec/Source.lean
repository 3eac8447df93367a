import SymExec.Text.Quoted

/-!
# Sources

What is found under a path, and the paths themselves. Lines of a text end with a line feed, whatever
ends them in the file.
-/
namespace SymExec

inductive Source where
  | missing
  | directory
  | text (content : String)

namespace Source

/-- The text with a line feed for every carriage return, and for the two together. -/
def unifyBreaks : List Char → List Char
  | '\r' :: '\n' :: cs => '\n' :: unifyBreaks cs
  | '\r' :: cs => '\n' :: unifyBreaks cs
  | c :: cs => c :: unifyBreaks cs
  | [] => []

def ofText (content : String) : Source := text (String.ofList (unifyBreaks content.toList))

def missingMessage (path : String) : String :=
  "[Errno 2] No such file or directory: " ++ Text.quoted path

def directoryMessage (path : String) : String :=
  "[Errno 21] Is a directory: " ++ Text.quoted path

/-- The shortest spelling of a path that needs no directory to be looked up: without empty parts and
those that are a point. Two slashes at the front are kept, more are one. -/
def normalPath (path : String) : String :=
  let slashes := (path.toList.takeWhile (· == '/')).length
  let root := if slashes = 0 then "" else if slashes = 2 then "//" else "/"
  let parts := (path.splitOn "/").filter fun part => part ≠ "" && part ≠ "."
  let spelled := root ++ "/".intercalate parts
  if spelled.isEmpty then "." else spelled

end Source
end SymExec
