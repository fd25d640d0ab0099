import PageMend.Batch.Failure
import PageMend.Batch.Ledger
import PageMend.Batch.Timestamp

/-!
# Summaries

What a run did, and how it is told to a reader.
-/

namespace PageMend

/-- A rule that fired, with the number of files on which it did. -/
structure Tally where
  rule : String
  label : String
  files : Nat
  deriving DecidableEq, Repr

structure Summary where
  directory : String
  startedAt : Timestamp
  dryRun : Bool
  filesScanned : Nat
  filesModified : Nat
  ledger : Ledger
  /-- The rules that fired, in the order of the pipeline. -/
  rules : List Tally
  failureCounts : FailureCounts
  failures : List Failure
  deriving DecidableEq

namespace Summary

def totalFailures (s : Summary) : Nat := s.failureCounts.total

/-- What is written for a rule that fired. -/
def ruleLine (t : Tally) : String := "   - " ++ t.label ++ " in " ++ toString t.files ++ " files\n"

/-- What is written for a category of failures. -/
def failureLine : Category × Nat → String
  | (c, n) => "   - " ++ c.label ++ ": " ++ toString n ++ "\n"

/-- The summary for a reader. -/
def format (s : Summary) : String :=
  "📊 Scanned " ++ toString s.filesScanned ++ " files in " ++ s.directory ++ ", " ++
    (if s.dryRun then "would change " else "changed ") ++ toString s.filesModified ++ "\n" ++
    (if s.rules.isEmpty then "   ✅ Nothing to fix\n" else "") ++
    String.join (s.rules.map ruleLine) ++
    if 0 < s.totalFailures then
      "⚠️  " ++ toString s.totalFailures ++ " files skipped:\n" ++
        String.join (s.failureCounts.toList.map failureLine)
    else ""

end Summary

end PageMend
