import PageMend.Config.Basic
import PageMend.Yaml.Written

/-!
# Writing a configuration

`Config.toYaml` writes all parts of a configuration, in the form in which `Config.load` reads it.
-/

namespace PageMend

open Yaml.Written

/-- A rule as an item of a list. -/
def RuleEntry.toYaml (rule : RuleEntry) : String :=
  entryAfter "  - " "name" rule.name ++ flag 4 "enabled" rule.enabled

/-- The rules of a pipeline, as the value of their key. -/
def rulesToYaml (rules : List RuleEntry) : String :=
  if rules.isEmpty then "  rules: []\n"
  else heading 2 "rules" ++ String.join (rules.map RuleEntry.toYaml)

def Config.toYaml (config : Config) : String :=
  entry 0 "extension" config.extension ++
    heading 0 "title_suffix" ++
    entry 2 "marker" config.titleSuffix.marker ++
    entry 2 "heading_tag" config.titleSuffix.headingTag ++
    entry 2 "heading_class" config.titleSuffix.headingClass ++
    heading 0 "import_statement" ++
    entry 2 "marker" config.importStatement.marker ++
    heading 0 "pipeline" ++
    rulesToYaml config.pipeline ++
    flag 0 "progress" config.progress ++
    flag 0 "dry_run" config.dryRun

end PageMend
