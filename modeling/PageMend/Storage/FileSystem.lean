import PageMend.Storage.Path

/-!
# File systems

A file system is a value: a list of entries, each at a location, and the directory in which
relative paths start. What an operation answers does not depend on the order of the list, except
that `names` lists a directory in that order.

`locate` follows a path from directory to directory and through symbolic links. The number of
links on the way is limited, so it ends also where links go in circles.

## What is left out

* Names are Unicode strings. A system that has names of other bytes has files that no file system
  here has.
* There are no permissions and no owners: what is there can be read and written, and nothing is
  refused for the want of a right.
* An operation is done as a whole or not at all. There is no write that breaks off, as on a full
  disk, and so no temporary file that is partly written.
* Temporary files have no random names. All those of a run bear one stamp, which is given to the
  run; that no other file has such a name is a hypothesis where it matters.
* Nobody else changes the files while a run goes on.
-/

namespace PageMend.Storage

/-- Why the system refuses an operation. -/
inductive OsError where
  | notFound | busy | notDirectory | isDirectory | nameTooLong | tooManyLinks | nulInPath
  deriving DecidableEq, Repr

def OsError.message : OsError → String
  | .notFound => "No such file or directory (os error 2)"
  | .busy => "Device or resource busy (os error 16)"
  | .notDirectory => "Not a directory (os error 20)"
  | .isDirectory => "Is a directory (os error 21)"
  | .nameTooLong => "File name too long (os error 36)"
  | .tooManyLinks => "Too many levels of symbolic links (os error 40)"
  | .nulInPath => "file name contained an unexpected NUL byte"

/-- The names that lead from the root to an entry. -/
abbrev Location := List String

inductive Entry where
  | file (bytes : ByteArray)
  | directory
  | link (target : String)

instance : DecidableEq Entry
  | .file a, .file b =>
    match ByteArray.instDecidableEq a b with
    | isTrue h => isTrue (by rw [h])
    | isFalse h => isFalse fun e => h (Entry.file.inj e)
  | .directory, .directory => isTrue rfl
  | .link a, .link b =>
    if h : a = b then isTrue (by rw [h]) else isFalse fun e => h (Entry.link.inj e)
  | .file _, .directory | .file _, .link _ | .directory, .file _ | .directory, .link _
  | .link _, .file _ | .link _, .directory => isFalse (fun e => nomatch e)

structure FileSystem where
  entries : List (Location × Entry)
  /-- Where relative paths start. -/
  workingDirectory : Location

namespace FileSystem

/-! ### Entries -/

/-- The entry at a location. The root is a directory. -/
def entryAt? (fs : FileSystem) (loc : Location) : Option Entry :=
  if loc = [] then some .directory else fs.entries.lookup loc

/-- Puts an entry at a location, in the place of the one that is there. -/
def put (fs : FileSystem) (loc : Location) (e : Entry) : FileSystem :=
  { fs with entries := (loc, e) :: fs.entries.filter (·.1 ≠ loc) }

/-- Takes away the entry at a location. -/
def drop (fs : FileSystem) (loc : Location) : FileSystem :=
  { fs with entries := fs.entries.filter (·.1 ≠ loc) }

/-- The names of the entries in a directory. -/
def names (fs : FileSystem) (directory : Location) : List String :=
  fs.entries.filterMap fun (loc, _) =>
    match loc.getLast? with
    | some name => if loc.dropLast = directory then some name else none
    | none => none

/-- The entries below a directory, each at its location from there. -/
def below (fs : FileSystem) (directory : Location) : List (Location × Entry) :=
  fs.entries.filterMap fun (loc, e) =>
    if directory.isPrefixOf loc ∧ loc.length > directory.length then
      some (loc.drop directory.length, e)
    else none

/-! ### Following a path -/

/-- What a path leads to. -/
inductive Place where
  | taken (loc : Location) (entry : Entry)
  /-- The directory exists and has no entry of that name. -/
  | vacant (directory : Location) (name : String)
  deriving DecidableEq

/-- The parts of a path to be followed. An empty one at the end stands for a slash there, which
asks for a directory. -/
def steps (path : String) : List String :=
  (Path.segments path).filter (· ≠ "") ++ if Path.endsInSlash path then [""] else []

/-- A name longer than this many bytes is refused. -/
def maxNameLength : Nat := 255

/-- A path of this many bytes or more is refused. -/
def maxPathLength : Nat := 4096

/-- A path that leads through more links than this is refused. -/
def maxLinks : Nat := 40

/-- Follows the parts of a path from a directory on. `links` is the number of links that may still
be met. Where a file is to be made, no slash may stand behind its name. -/
def walk (fs : FileSystem) (making : Bool) (links : Nat) (here : Location) :
    List String → Except OsError Place
  | [] => .ok (.taken here .directory)
  | name :: rest =>
    if name = "" ∨ name = "." then walk fs making links here rest
    else if name = ".." then walk fs making links here.dropLast rest
    else if making ∧ rest = [""] then .error .isDirectory
    else if maxNameLength < name.utf8ByteSize then .error .nameTooLong
    else
      match fs.entryAt? (here ++ [name]) with
      | none => if rest = [] then .ok (.vacant here name) else .error .notFound
      | some .directory => walk fs making links (here ++ [name]) rest
      | some (.file bytes) =>
        if rest = [] then .ok (.taken (here ++ [name]) (.file bytes)) else .error .notDirectory
      | some (.link target) =>
        match links with
        | 0 => .error .tooManyLinks
        | links + 1 =>
          walk fs making links (if Path.isAbsolute target then [] else here)
            (steps target ++ rest)
termination_by parts => (links, parts.length)

/-- Where a path starts. -/
def start (fs : FileSystem) (path : String) : Location :=
  if Path.isAbsolute path then [] else fs.workingDirectory

/-- Refuses a path that no entry can have. -/
def checkPath (path : String) : Except OsError Unit :=
  if path = "" then .error .notFound
  else if path.toList.contains '\x00' then .error .nulInPath
  else if maxPathLength ≤ path.utf8ByteSize then .error .nameTooLong
  else .ok ()

/-- What a path leads to, through all links. -/
def locate (fs : FileSystem) (path : String) : Except OsError Place := do
  checkPath path
  fs.walk false maxLinks (fs.start path) (steps path)

/-- Whether a path leads to a directory. -/
def isDirectory (fs : FileSystem) (path : String) : Bool :=
  match fs.locate path with
  | .ok (.taken _ .directory) => true
  | _ => false

/-- The directory in which the last part of a path lies, and that part. A path that ends in a dot
or two has no last part. -/
def locateParent (fs : FileSystem) (path : String) : Except OsError (Location × Option String) := do
  checkPath path
  let parts := (Path.segments path).filter (· ≠ "")
  match ← fs.walk false maxLinks (fs.start path) (parts.dropLast ++ ["."]) with
  | .taken loc _ =>
    match parts.getLast? with
    | some name => return (loc, if name = "." ∨ name = ".." then none else some name)
    | none => return (loc, none)
  | .vacant _ _ => .error .notFound

/-! ### Operations -/

/-- The bytes of a file. -/
def read (fs : FileSystem) (path : String) : Except OsError ByteArray := do
  match ← fs.locate path with
  | .taken _ (.file bytes) => return bytes
  | .taken _ _ => .error .isDirectory
  | .vacant _ _ => .error .notFound

/-- Writes a file, which is made if it is not there. Links are followed. -/
def write (fs : FileSystem) (path : String) (bytes : ByteArray) : Except OsError FileSystem := do
  checkPath path
  match ← fs.walk true maxLinks (fs.start path) (steps path) with
  | .taken loc (.file _) => return fs.put loc (.file bytes)
  | .taken _ _ => .error .isDirectory
  | .vacant directory name => return fs.put (directory ++ [name]) (.file bytes)

/-- Moves a file over another one. A link at the target is replaced, not followed. -/
def moveFile (fs : FileSystem) (source target : String) : Except OsError FileSystem := do
  let (sourceDirectory, sourceName) ← fs.locateParent source
  let (targetDirectory, targetName) ← fs.locateParent target
  match sourceName, targetName with
  | some sourceName, some targetName =>
    let origin := sourceDirectory ++ [sourceName]
    let goal := targetDirectory ++ [targetName]
    if maxNameLength < sourceName.utf8ByteSize ∨ maxNameLength < targetName.utf8ByteSize then
      .error .nameTooLong
    else
      match fs.entryAt? origin with
      | none => .error .notFound
      | some moved =>
        if Path.endsInSlash target then .error .notDirectory
        else if fs.entryAt? goal = some .directory then .error .isDirectory
        else return (fs.drop origin).put goal moved
  | _, _ => .error .busy

/-- Takes away a file if it is there. -/
def removeFile (fs : FileSystem) (path : String) : FileSystem :=
  match fs.locateParent path with
  | .ok (directory, some name) =>
    if fs.entryAt? (directory ++ [name]) = some .directory then fs
    else fs.drop (directory ++ [name])
  | _ => fs

/-! ### Building a file system -/

/-- Makes the directories of a path that are not there, from a directory on. -/
def makeDirectories (fs : FileSystem) (here : Location) : List String → FileSystem × Location
  | [] => (fs, here)
  | name :: rest =>
    match fs.walk false maxLinks here [name] with
    | .ok (.taken loc _) => makeDirectories fs loc rest
    | .ok (.vacant directory name) =>
      makeDirectories (fs.put (directory ++ [name]) .directory) (directory ++ [name]) rest
    | .error _ => (fs, here)

/-- Makes an entry at a path, and the directories that it needs. -/
def make (fs : FileSystem) (path : String) (entry : Entry) : FileSystem :=
  let parts := (Path.segments path).filter (· ≠ "")
  let (fs, parent) := fs.makeDirectories (fs.start path) parts.dropLast
  match entry with
  | .directory => (fs.makeDirectories (fs.start path) parts).1
  | .link target => fs.put (parent ++ [parts.getLastD ""]) (.link target)
  | .file bytes =>
    match fs.write path bytes with
    | .ok fs => fs
    | .error _ => fs

/-- A file system with one empty directory, which is the working directory. -/
def empty (directory : String) : FileSystem where
  entries := [([directory], .directory)]
  workingDirectory := [directory]

end FileSystem

end PageMend.Storage
