import PageMend.Batch.Run
import PageMend.CommandLine.Arguments
import PageMend.Config.Load
import PageMend.Config.Written
import PageMend.Report.Basic

/-!
# Running a command

`run` takes arguments and a file system to what the program prints, its exit code, and the file
system that it leaves behind. All that can be refused is refused before the first page is touched,
except that a report may not be saved.
-/

namespace PageMend.CommandLine

open Storage

/-- What a command does. -/
structure Outcome where
  fs : FileSystem
  exitCode : Nat := 0
  /-- What it prints if it takes so many milliseconds. -/
  output : Nat → String := fun _ => ""
  /-- What it prints as errors. -/
  errors : String := ""

/-- What a run takes from the world besides files: when it starts, and a text that no file name
has. -/
structure Occasion where
  startedAt : Timestamp
  stamp : String
  deriving DecidableEq, Repr

/-- What help says. -/
def usage : String :=
  "Removes bogus QML type info from generated JavaScript reference pages\n\n" ++
    "Usage: refdoc-fixup [OPTIONS] [OUTPUTDIR]\n\n" ++
    "Arguments:\n" ++
    "  [OUTPUTDIR]  Output directory of the generated html files\n\n" ++
    "Options:\n" ++
    "  -c, --config <CONFIG>       Path to custom config file (YAML format)\n" ++
    "      --dry-run               Report what would change without rewriting any file\n" ++
    "  -r, --report <REPORT>       Write the run summary as JSON to this path\n" ++
    "      --no-progress           Do not print progress dots while scanning\n" ++
    "      --print-default-config  Print the default config (YAML) and exit\n" ++
    "  -h, --help                  Print help\n"

/-- The configuration with what the options say. They can only make a run do or print less. -/
def Options.override (options : Options) (config : Config) : Config :=
  { config with
    dryRun := config.dryRun || options.dryRun
    progress := config.progress && !options.noProgress }

/-- What is printed before a run. -/
def heading (config : Config) (directory : String) : String :=
  "📄 Processing: " ++ directory ++ "\n" ++
    if config.dryRun then "🔍 Dry run - no files will be written\n" else ""

/-- What is printed for a run that took so many milliseconds. -/
def footing (summary : Summary) (milliseconds : Nat) : String :=
  summary.format ++ "⏱️  Finished in " ++ toString milliseconds ++ "ms\n"

/-- Saves the report of a run, if one is asked for. -/
def finish (report : Option String) (output : Nat → String) (summary : Summary)
    (fs : FileSystem) : Outcome :=
  match report with
  | none => { fs, output }
  | some path =>
    match summary.saveReport fs path with
    | .ok fs => { fs, output := fun n => output n ++ "💾 Report saved to: " ++ path ++ "\n" }
    | .error e =>
      { fs, output, exitCode := 1,
        errors :=
          "Error: " ++ e.context ++ "\n\nCaused by:\n    " ++ e.error.message ++ "\n" }

/-- Mends the pages of a directory. -/
def mend (fs : FileSystem) (occasion : Occasion) (directory : String) (options : Options) :
    Outcome :=
  match Config.load fs options.config with
  | .error e => { fs, exitCode := 1, errors := "❌ " ++ e.message ++ "\n" }
  | .ok config =>
    match Batch.Runner.new (options.override config) .standard with
    | .error reason =>
      { fs, exitCode := 1, errors := "❌ " ++ (ConfigError.unfit reason).message ++ "\n" }
    | .ok runner =>
      let heading := heading runner.config directory
      match runner.run occasion.stamp occasion.startedAt fs directory with
      | .error e =>
        { fs, exitCode := 1, output := fun _ => heading,
          errors := "❌ Error: " ++ e.message ++ "\n" }
      | .ok (fs, summary, printed) =>
        finish options.report (fun n => heading ++ printed ++ footing summary n) summary fs

/-- Does what a command says. -/
def Command.run (fs : FileSystem) (occasion : Occasion) : Command → Outcome
  | .help => { fs, output := fun _ => usage }
  | .printDefaultConfig => { fs, output := fun _ => Config.toYaml {} }
  | .mend directory options => CommandLine.mend fs occasion directory options

/-- Does what the arguments say. -/
def run (fs : FileSystem) (occasion : Occasion) (arguments : List String) : Outcome :=
  match Command.ofArguments arguments with
  | .error e => { fs, exitCode := 2, errors := "error: " ++ e.message ++ "\n" }
  | .ok command => command.run fs occasion

end PageMend.CommandLine
