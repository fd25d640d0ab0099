import PageMend.Config.Basic
import PageMend.Storage.FileSystem
import PageMend.Text.Utf8
import PageMend.Yaml.Decode

/-!
# Loading a configuration

A configuration file is a YAML mapping. What it does not mention keeps its default, but a part that
it does mention has to be complete. A file that cannot be read, understood or run is an error, and
never stands for the defaults.
-/

namespace PageMend

open Storage Yaml

namespace Config

/-! ### Shapes -/

def titleSuffixShape : Shape TitleSuffix where
  name := "TitleSuffixConfig"
  initial := {}
  fields :=
    [.mandatory "marker" .string fun v c => { c with marker := v },
      .mandatory "heading_tag" .string fun v c => { c with headingTag := v },
      .mandatory "heading_class" .string fun v c => { c with headingClass := v }]

def importStatementShape : Shape ImportStatement where
  name := "ImportStatementConfig"
  initial := {}
  fields := [.mandatory "marker" .string fun v c => { c with marker := v }]

def ruleShape : Shape RuleEntry where
  name := "RuleConfig"
  initial := { name := "" }
  fields :=
    [.mandatory "name" .string fun v c => { c with name := v },
      .optional "enabled" .bool fun v c => { c with enabled := v }]

def pipelineShape : Shape (List RuleEntry) where
  name := "PipelineConfig"
  initial := []
  fields := [.mandatory "rules" (.list (.record ruleShape)) fun v _ => v]

def shape : Shape Config where
  name := "FixupConfig"
  initial := {}
  fields :=
    [.optional "extension" .string fun v c => { c with extension := v },
      .optional "title_suffix" (.record titleSuffixShape) fun v c => { c with titleSuffix := v },
      .optional "import_statement" (.record importStatementShape) fun v c =>
        { c with importStatement := v },
      .optional "pipeline" (.record pipelineShape) fun v c => { c with pipeline := v },
      .optional "progress" .bool fun v c => { c with progress := v },
      .optional "dry_run" .bool fun v c => { c with dryRun := v }]

end Config

/-! ### Files -/

/-- Why there is no configuration. -/
inductive ConfigError where
  | unreadable (path : String) (error : OsError)
  | notText (path : String)
  | notConfig (path : String) (error : ReadError)
  | unfit (reason : Unfit)
  deriving DecidableEq, Repr

def ConfigError.message (e : ConfigError) : String :=
  "Invalid configuration: " ++
    match e with
    | .unreadable path error => path ++ ": " ++ error.message
    | .notText path => path ++ ": stream did not contain valid UTF-8"
    | .notConfig path error => path ++ ": " ++ error.message
    | .unfit reason => reason.message

/-- The configuration in a file. -/
def Config.loadFile (fs : FileSystem) (path : String) : Except ConfigError Config := do
  let bytes ← (fs.read path).mapError (.unreadable path)
  let text ← (Text.Utf8.decode bytes).mapError fun _ => .notText path
  let config ← (Config.shape.read text).mapError (.notConfig path)
  config.check.mapError .unfit
  return config

/-- The configuration in a file, or the default where no file is given. -/
def Config.load (fs : FileSystem) : Option String → Except ConfigError Config
  | none => .ok {}
  | some path => Config.loadFile fs path

end PageMend
