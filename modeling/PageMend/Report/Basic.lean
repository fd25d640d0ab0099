import PageMend.Batch.Summary
import PageMend.Report.Json
import PageMend.Storage.FileSystem

/-!
# Reports

A report is the summary of a run as a JSON text. `Summary.toJson` and `Summary.ofJson?` are the two
directions; `Summary.report` and `Summary.ofReport?` are the same for texts.
-/

namespace PageMend

open Storage

/-! ### To JSON -/

def Ledger.toJson (l : Ledger) : Json :=
  .object (l.counts.map fun (name, n) => (name, .ofNat n))

def Tally.toJson (t : Tally) : Json :=
  .object [("rule", .string t.rule), ("label", .string t.label), ("files", .ofNat t.files)]

def FailureCounts.toJson (counts : FailureCounts) : Json :=
  .object (counts.toList.map fun (c, n) => (c.label, .ofNat n))

def Failure.toJson (f : Failure) : Json :=
  .object [("path", .string f.path), ("category", .string f.category.label),
    ("message", .string f.message)]

def Summary.toJson (s : Summary) : Json :=
  .object
    [("directory", .string s.directory),
      ("started_at", .string s.startedAt.format),
      ("dry_run", .bool s.dryRun),
      ("files_scanned", .ofNat s.filesScanned),
      ("files_modified", .ofNat s.filesModified),
      ("ledger", s.ledger.toJson),
      ("rules", .array (s.rules.map Tally.toJson)),
      ("failure_counts", s.failureCounts.toJson),
      ("failures", .array (s.failures.map Failure.toJson))]

/-- The text of a report. -/
def Summary.report (s : Summary) : String := s.toJson.pretty

/-! ### From JSON -/

def Ledger.ofJson? (v : Json) : Option Ledger := do
  let counts ← (← v.object?).mapM fun (name, n) => n.count?.map (name, ·)
  return .ofList counts

def Tally.ofJson? (v : Json) : Option Tally := do
  match ← v.fields? ["rule", "label", "files"] with
  | [rule, label, files] =>
    return { rule := ← rule.string?, label := ← label.string?, files := ← files.count? }
  | _ => none

/-- A label may also stand as the name of a member that is alone and without a value. -/
def Category.ofJson? : Json → Option Category
  | .string label | .object [(label, .null)] => Category.labelled? label
  | _ => none

def FailureCounts.ofJson? (v : Json) : Option FailureCounts := do
  let counts ← (← v.object?).mapM fun (label, n) => do
    return (← Category.labelled? label, ← n.count?)
  return counts.foldl (fun all (c, n) => all.set c n) {}

def Failure.ofJson? (v : Json) : Option Failure := do
  match ← v.fields? ["path", "category", "message"] with
  | [path, category, message] =>
    return { path := ← path.string?, category := ← Category.ofJson? category,
             message := ← message.string? }
  | _ => none

def Summary.ofJson? (v : Json) : Option Summary := do
  match ← v.fields? ["directory", "started_at", "dry_run", "files_scanned", "files_modified",
      "ledger", "rules", "failure_counts", "failures"] with
  | [directory, startedAt, dryRun, scanned, modified, ledger, rules, counts, failures] =>
    return {
      directory := ← directory.string?
      startedAt := ← startedAt.string?.bind Timestamp.read?
      dryRun := ← dryRun.bool?
      filesScanned := ← scanned.count?
      filesModified := ← modified.count?
      ledger := ← Ledger.ofJson? ledger
      rules := ← (← rules.array?).mapM Tally.ofJson?
      failureCounts := ← FailureCounts.ofJson? counts
      failures := ← (← failures.array?).mapM Failure.ofJson? }
  | _ => none

/-- Reads the text of a report. -/
def Summary.ofReport? (text : String) : Option Summary := (Json.read? text).bind ofJson?

/-! ### Saving -/

/-- Why a report was not saved. -/
structure ReportError where
  path : String
  error : OsError
  deriving DecidableEq, Repr

/-- What failed. -/
def ReportError.context (e : ReportError) : String := "write report " ++ e.path

def ReportError.message (e : ReportError) : String := e.context ++ ": " ++ e.error.message

/-- Writes the report of a run to a file. -/
def Summary.saveReport (s : Summary) (fs : FileSystem) (path : String) :
    Except ReportError FileSystem :=
  (fs.write path s.report.toUTF8).mapError fun error => ⟨path, error⟩

end PageMend
