import PageMend.Batch.Failure
import PageMend.Page.Basic
import PageMend.Storage.FileSystem

/-!
# Saving a page

A modified page is written to a temporary file beside its own, which is then moved over it: at no
time is there half a page at the path, and if a step fails the page is as it was. The temporary
name bears the stamp of the run. Two pages of one directory have different names and so different
temporary files, though they share the stamp.
-/

namespace PageMend

open Storage

/-- Why a page was not saved. -/
inductive RewriteError where
  | temporaryFile (path : String) (error : OsError)
  | replace (path : String) (error : OsError)
  | noParent (path : String)
  deriving DecidableEq, Repr

def RewriteError.message : RewriteError → String
  | .temporaryFile path error =>
    "Failed to write temporary file " ++ path ++ ": " ++ error.message
  | .replace path error => "Failed to replace " ++ path ++ ": " ++ error.message
  | .noParent path => "Path has no parent directory: " ++ path

namespace Page

/-- The temporary path for a page: in the same directory, hidden, with the stamp in its name. -/
def temporaryPath? (stamp path : String) : Option String :=
  (Path.parent? path).map fun directory =>
    Path.join directory ("." ++ (Path.fileName? path).getD "" ++ "." ++ stamp ++ ".tmp")

/-- Saves a page if it is modified, and tells whether it did. -/
def rewrite (stamp : String) (fs : FileSystem) (page : Page) :
    FileSystem × Except RewriteError Bool :=
  if !page.modified then (fs, .ok false)
  else
    match temporaryPath? stamp page.path with
    | none => (fs, .error (.noParent page.path))
    | some temporary =>
      match fs.write temporary page.serialize.toUTF8 with
      | .error error => (fs, .error (.temporaryFile temporary error))
      | .ok written =>
        match written.moveFile temporary page.path with
        | .error error => (written.removeFile temporary, .error (.replace page.path error))
        | .ok moved => (moved, .ok true)

end Page

end PageMend
