import PageMend.Text.Blank
import PageMend.Text.Search
import PageMend.Text.Quoted

/-!
# Configuration

What a run removes, from which files, and how it reports. `Config.check` says which configurations
are fit to run: markers are matched against the text of a page as it is written, so they must not
contain characters that are written otherwise there.
-/

namespace PageMend

/-- The marker that is removed from the page title and from the first title heading. -/
structure TitleSuffix where
  marker : String := " QML Type"
  /-- The tag name of the heading. -/
  headingTag : String := "h1"
  /-- The class that the heading bears. -/
  headingClass : String := "title"
  deriving DecidableEq, Repr, Inhabited

/-- The label by which the row to remove is known. -/
structure ImportStatement where
  marker : String := "Import Statement:"
  deriving DecidableEq, Repr, Inhabited

/-- A rule of the pipeline, by its name. -/
structure RuleEntry where
  name : String
  enabled : Bool := true
  deriving DecidableEq, Repr, Inhabited

structure Config where
  /-- The part of a file name behind its last dot that selects the file. -/
  extension : String := "html"
  titleSuffix : TitleSuffix := {}
  importStatement : ImportStatement := {}
  /-- The rules, in the order in which they are applied. -/
  pipeline : List RuleEntry := [⟨"TitleSuffixStrip", true⟩, ⟨"ImportStatementRemoval", true⟩]
  /-- Print dots while running. -/
  progress : Bool := true
  /-- Tell what would change, and change nothing. -/
  dryRun : Bool := false
  deriving DecidableEq, Repr, Inhabited

/-! ### Fitness -/

/-- Why a configuration is not fit to run. -/
inductive Unfit where
  | extension (found : String)
  | emptyField (field : String)
  | markupInField (field found : String)
  deriving DecidableEq, Repr

def Unfit.message : Unfit → String
  | .extension found =>
    "extension must be non-empty and given without a leading dot, got " ++ Text.quoted found
  | .emptyField field => field ++ " must be non-empty"
  | .markupInField field found =>
    field ++ " must not contain markup characters, got " ++ Text.quoted found

/-- The characters that a page writes as references. -/
def isMarkupCharacter (c : Char) : Bool := c == '<' || c == '>' || c == '&'

/-- A marker has to be a piece of text as pages write it. -/
def checkMarker (field marker : String) : Except Unfit Unit :=
  if marker.isEmpty then .error (.emptyField field)
  else if marker.toList.any isMarkupCharacter then .error (.markupInField field marker)
  else .ok ()

/-- The first reason why a configuration is not fit to run, if there is one. -/
def Config.check (config : Config) : Except Unfit Unit := do
  if config.extension.isEmpty ∨ config.extension.toList.head? = some '.' then
    throw (.extension config.extension)
  checkMarker "title_suffix.marker" config.titleSuffix.marker
  checkMarker "import_statement.marker" config.importStatement.marker
  if config.titleSuffix.headingTag.toList.all Text.isBlank then
    throw (.emptyField "title_suffix.heading_tag")

end PageMend
