import PageMend.Batch.Failure
import PageMend.Markup.Parse
import PageMend.Page.Basic
import PageMend.Storage.FileSystem
import PageMend.Text.Utf8

/-!
# Loading a page

A file becomes a page in three steps, and each can fail in a way of its own: its bytes are read,
read as text, and the text is read as markup. The last step is done by a `MarkupReader`, which has
to be ready.
-/

namespace PageMend

open Markup Storage

/-- Why a file is no page. -/
inductive LoadError where
  | io (error : OsError)
  | encoding (fault : Text.Utf8.Fault)
  | malformed (error : MarkupError)
  deriving DecidableEq, Repr

def LoadError.message : LoadError → String
  | .io error => "IO error: " ++ error.message
  | .encoding fault => "Encoding error: " ++ fault.message
  | .malformed error => error.message

def LoadError.category : LoadError → Category
  | .io _ => .io
  | .encoding _ => .encoding
  | .malformed _ => .malformedMarkup

/-- What reads markup. -/
structure MarkupReader where
  name : String
  ready : Bool
  read : String → Except MarkupError Tree

/-- The reader of this library. -/
def MarkupReader.standard : MarkupReader where
  name := "quick-xml"
  ready := true
  read := parse

/-- A reader that is ready. -/
structure Loader where
  reader : MarkupReader
  ready : reader.ready = true

/-- The loader over a reader, if that is ready. -/
def Loader.over? (reader : MarkupReader) : Option Loader :=
  if h : reader.ready = true then some ⟨reader, h⟩ else none

def Loader.standard : Loader := ⟨.standard, rfl⟩

/-- Loads a page. -/
def Loader.load (loader : Loader) (fs : FileSystem) (path : String) : Except LoadError Page := do
  let bytes ← (fs.read path).mapError LoadError.io
  let source ← (Text.Utf8.decode bytes).mapError LoadError.encoding
  let tree ← (loader.reader.read source).mapError LoadError.malformed
  return { path, source, tree }

end PageMend
