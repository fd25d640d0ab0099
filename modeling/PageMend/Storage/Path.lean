/-!
# Paths

A path is a text whose parts are separated by slashes. The functions split it by its spelling
alone: repeated slashes and parts that are a single dot do not count, and a dot at the very start
stands for itself.
-/

namespace PageMend.Storage

namespace Path

/-- The texts between slashes. -/
def segments (path : String) : List String :=
  (path.toList.splitOn '/').map String.ofList

/-- Whether a path starts at the root. -/
def isAbsolute (path : String) : Bool := path.toList.head? == some '/'

/-- Whether a path ends in a slash. -/
def endsInSlash (path : String) : Bool := path.toList.getLast? == some '/'

/-- A path, last character first, without the slashes and single dots at its end. -/
def trimReversed : List Char → List Char
  | ['/'] => ['/']
  | '/' :: cs => trimReversed cs
  | '.' :: '/' :: cs => trimReversed ('/' :: cs)
  | cs => cs
termination_by cs => cs.length

/-- The last part of a path, unless it stands for a directory by its place (`.`, `..`, the
root). -/
def fileName? (path : String) : Option String :=
  let name := String.ofList ((trimReversed path.toList.reverse).takeWhile (· ≠ '/')).reverse
  if name = "" ∨ name = "." ∨ name = ".." then none else some name

/-- The path without its last part, or `none` if it has none. -/
def parent? (path : String) : Option String :=
  match trimReversed path.toList.reverse with
  | [] => none
  | ['/'] => none
  | cs => some (String.ofList (trimReversed (cs.dropWhile (· ≠ '/'))).reverse)

/-- The path of a name inside a directory. -/
def join (directory name : String) : String :=
  if directory = "" ∨ endsInSlash directory then directory ++ name else directory ++ "/" ++ name

/-- The part of a file name behind its last dot. A dot at the start of the name does not count. -/
def extensionOfName? (name : String) : Option String :=
  let reversed := name.toList.reverse
  match reversed.dropWhile (· ≠ '.') with
  | _ :: _ :: _ => some (String.ofList (reversed.takeWhile (· ≠ '.')).reverse)
  | _ => none

end Path

end PageMend.Storage
