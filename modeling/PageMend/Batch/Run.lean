import PageMend.Batch.Summary
import PageMend.Page.Load
import PageMend.Page.Rewrite
import PageMend.Rule

/-!
# Running over a directory

`run` mends the pages of one directory: those of its files whose names have the configured
extension, in ascending order of their names. A page that cannot be loaded or saved is recorded
and left as it is; the others are not affected. A dry run writes nothing. `runShown` is the run with
the dots that it prints between the files.

A `Runner` runs over any directory. It holds a configuration that is fit to run: from any other no
runner is made.
-/

namespace PageMend

open Storage

/-- Why a run does not start. -/
inductive RunError where
  | readerNotReady (name : String)
  | noSuchDirectory (path : String)
  deriving DecidableEq, Repr

def RunError.message : RunError → String
  | .readerNotReady name => "Markup backend unavailable: backend " ++ name ++ " is not ready"
  | .noSuchDirectory path => "No such directory: " ++ path

namespace Batch

/-! ### Which files -/

/-- Whether an entry of a directory is a page: it has the extension, and is no directory, also not
through a link. -/
def isCandidate (config : Config) (fs : FileSystem) (directory name : String) : Bool :=
  !fs.isDirectory (Path.join directory name) &&
    Path.extensionOfName? name = some config.extension

/-- The paths of the pages of a directory, in ascending order of their names. -/
def candidates (config : Config) (fs : FileSystem) (directory : String) :
    Except RunError (List String) :=
  match fs.locate directory with
  | .ok (.taken loc .directory) =>
    .ok ((((fs.names loc).filter (isCandidate config fs directory)).mergeSort (· ≤ ·)).map
      (Path.join directory))
  | _ => .error (.noSuchDirectory directory)

/-! ### One file -/

/-- What became of a file. -/
inductive Outcome where
  /-- No rule fired. -/
  | untouched
  | mended (fired : List Rule)
  | failed (category : Category) (message : String)
  deriving DecidableEq, Repr

/-- Mends one file. -/
def mendFile (config : Config) (loader : Loader) (stamp : String) (fs : FileSystem)
    (path : String) : FileSystem × Outcome :=
  match loader.load fs path with
  | .error error => (fs, .failed error.category ("Failed to parse: " ++ error.message))
  | .ok page =>
    let (page, fired) := mend config page
    if fired.isEmpty then (fs, .untouched)
    else if config.dryRun then (fs, .mended fired)
    else
      match page.rewrite stamp fs with
      | (fs, .ok _) => (fs, .mended fired)
      | (fs, .error error) => (fs, .failed .write error.message)

/-! ### All files -/

/-- What a run has done so far. -/
structure Progress where
  fs : FileSystem
  ledger : Ledger := .empty
  filesModified : Nat := 0
  failureCounts : FailureCounts := {}
  failures : List Failure := []

/-- Enters what became of a file. -/
def Progress.enter (p : Progress) (path : String) : Outcome → Progress
  | .untouched => p
  | .mended fired =>
    { p with
      filesModified := p.filesModified + 1
      ledger := fired.foldl (fun l r => l.record r.name) p.ledger }
  | .failed category message =>
    { p with
      failureCounts := p.failureCounts.record category
      failures := p.failures ++ [⟨path, category, message⟩] }

/-- Mends one file and enters what became of it. -/
def Progress.step (config : Config) (loader : Loader) (stamp : String) (p : Progress)
    (path : String) : Progress :=
  let (fs, outcome) := mendFile config loader stamp p.fs path
  { p with fs }.enter path outcome

/-- The active rules that fired, with their counts. -/
def tallies (config : Config) (ledger : Ledger) : List Tally :=
  (activeRules config.pipeline).filterMap fun r =>
    let files := ledger.count r.name
    if 0 < files then some ⟨r.name, r.label, files⟩ else none

/-- The summary of a run over so many files that has come so far. -/
def Progress.summary (p : Progress) (config : Config) (startedAt : Timestamp) (directory : String)
    (files : Nat) : Summary where
  directory := directory
  startedAt := startedAt
  dryRun := config.dryRun
  filesScanned := files
  filesModified := p.filesModified
  ledger := p.ledger
  rules := tallies config p.ledger
  failureCounts := p.failureCounts
  failures := p.failures

/-- Mends the pages of a directory. The stamp marks temporary files. -/
def run (config : Config) (loader : Loader) (stamp : String) (startedAt : Timestamp)
    (fs : FileSystem) (directory : String) : Except RunError (FileSystem × Summary) := do
  let paths ← candidates config fs directory
  let p := paths.foldl (Progress.step config loader stamp) { fs }
  return (p.fs, p.summary config startedAt directory paths.length)

/-! ### Dots -/

/-- After how many files a dot is printed. -/
def dotStep (files : Nat) : Nat := max files 16 / 16

/-- A run under way, with the dots that it has printed. -/
structure Shown where
  progress : Progress
  printed : List Char := []

/-- Whether a dot is printed in front of the file with that index. -/
def isDotDue (config : Config) (files index : Nat) : Bool :=
  config.progress && (index + 1) % dotStep files = 0

/-- Prints a dot, if one is due, and mends the file. -/
def Shown.step (config : Config) (loader : Loader) (stamp : String) (files : Nat) (s : Shown)
    (file : String × Nat) : Shown where
  progress := s.progress.step config loader stamp file.1
  printed := if isDotDue config files file.2 then s.printed ++ ['.'] else s.printed

/-- What was printed in all: the line is ended if there is a dot. -/
def Shown.output (s : Shown) : String :=
  if s.printed.isEmpty then "" else String.ofList s.printed ++ "\n"

/-- Mends the pages of a directory, and prints meanwhile. -/
def runShown (config : Config) (loader : Loader) (stamp : String) (startedAt : Timestamp)
    (fs : FileSystem) (directory : String) : Except RunError (FileSystem × Summary × String) := do
  let paths ← candidates config fs directory
  let s := paths.zipIdx.foldl (Shown.step config loader stamp paths.length) { progress := { fs } }
  return (s.progress.fs, s.progress.summary config startedAt directory paths.length, s.output)

/-- What such a run prints over so many files, told from their number alone. -/
def dots (progress : Bool) (files : Nat) : String :=
  if progress then
    let marks := (List.range files).filter fun i => (i + 1) % dotStep files = 0
    if marks.isEmpty then "" else String.ofList (marks.map fun _ => '.') ++ "\n"
  else ""

/-! ### Runners -/

/-- A loader, and a configuration that is fit to run. -/
structure Runner where
  config : Config
  loader : Loader
  isFit : config.check = .ok ()

namespace Runner

/-- The runner with that configuration, or why it is not fit to run. -/
def new (config : Config) (loader : Loader) : Except Unfit Runner :=
  match h : config.check with
  | .ok () => .ok ⟨config, loader, h⟩
  | .error reason => .error reason

theorem new_of_check {config : Config} (h : config.check = .ok ()) (loader : Loader) :
    new config loader = .ok ⟨config, loader, h⟩ := by
  unfold new
  split
  · rfl
  · rename_i reason hreason
    cases h.symm.trans hreason

/-- Mends the pages of a directory, and prints meanwhile. -/
def run (runner : Runner) (stamp : String) (startedAt : Timestamp) (fs : FileSystem)
    (directory : String) : Except RunError (FileSystem × Summary × String) :=
  runShown runner.config runner.loader stamp startedAt fs directory

end Runner

end Batch

end PageMend
