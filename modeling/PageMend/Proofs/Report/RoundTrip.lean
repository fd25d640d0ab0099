import PageMend.Proofs.Batch.Ledger
import PageMend.Proofs.Batch.Timestamp
import PageMend.Proofs.Report.Reading
import PageMend.Proofs.Storage.Write
import PageMend.Report.Basic
import PageMend.Text.Utf8

/-!
# A report is read back

Each part of a summary is read back from its own value: counts as long as they take no more than 64
bits, a ledger with its zeros and in its order, failure counts category by category. Put together, a
report is a JSON text of the summary's value, and the summary that is read from the file it was
saved to is the one that was saved (`ofReport?_of_saveReport`).
-/

namespace PageMend

namespace Json

/-- A count that fits is read back. -/
theorem count?_ofNat {n : Nat} (h : n < 2 ^ 64) : (ofNat n).count? = some n := by
  have hdigits : (Nat.toDigits 10 n).all Char.isDigit = true :=
    List.all_eq_true.2 (isWhole_toDigits n).digits
  have hvalue : (Nat.toDigits 10 n).foldl (fun n c => 10 * n + (c.toNat - '0'.toNat)) 0 = n :=
    Nat.ofDigitChars_eq_foldl.symm.trans Nat.ofDigitChars_ten_toDigits
  simp only [ofNat, count?, hdigits, hvalue, if_true]
  exact if_pos h

theorem proper_ofNat (n : Nat) : Proper (ofNat n) := .number (isNumber_toDigits n)

end Json

/-- Items that are each read back are read back in a row. -/
theorem mapM_of_forall {α β : Type} (write : α → β) (read : β → Option α) {items : List α}
    (h : ∀ item ∈ items, read (write item) = some item) :
    (items.map write).mapM read = some items := by
  induction items with
  | nil => rfl
  | cons item items ih =>
    obtain ⟨hitem, hitems⟩ := List.forall_mem_cons.1 h
    rw [List.map_cons, List.mapM_cons, hitem, ih hitems]
    rfl

/-! ## The parts of a summary -/

theorem Ledger.ofJson?_toJson {l : Ledger} (h : ∀ entry ∈ l.counts, entry.2 < 2 ^ 64) :
    Ledger.ofJson? l.toJson = some l := by
  simp only [Ledger.ofJson?, Ledger.toJson, Json.object?, Option.bind_eq_bind, Option.bind_some]
  rw [mapM_of_forall, Option.bind_some, Option.pure_def, Ledger.ofList_counts]
  intro entry hentry
  simp only [Json.count?_ofNat (h entry hentry), Option.map_some]

theorem Tally.ofJson?_toJson {t : Tally} (h : t.files < 2 ^ 64) :
    Tally.ofJson? t.toJson = some t := by
  have hfields : t.toJson.fields? ["rule", "label", "files"] =
      some [.string t.rule, .string t.label, .ofNat t.files] := by
    simp [Json.fields?, Tally.toJson, Json.member?]
  simp only [Tally.ofJson?, hfields, Json.string?, Json.count?_ofNat h, Option.bind_eq_bind,
    Option.bind_some, Option.pure_def]

/-- The listed categories set each count that there is. -/
theorem FailureCounts.foldl_toList (counts : FailureCounts) :
    counts.toList.foldl (fun all (c, n) => all.set c n) {} = counts := by
  obtain ⟨markup, encoding, io, write⟩ := counts
  cases markup <;> cases encoding <;> cases io <;> cases write <;> rfl

theorem FailureCounts.ofJson?_toJson {counts : FailureCounts}
    (h : ∀ entry ∈ counts.toList, entry.2 < 2 ^ 64) :
    FailureCounts.ofJson? counts.toJson = some counts := by
  simp only [FailureCounts.ofJson?, FailureCounts.toJson, Json.object?, Option.bind_eq_bind,
    Option.bind_some]
  rw [mapM_of_forall, Option.bind_some]
  · exact congrArg some counts.foldl_toList
  · intro entry hentry
    simp only [Category.labelled?_label, Json.count?_ofNat (h entry hentry), Option.bind_some,
      Option.pure_def]

theorem Failure.ofJson?_toJson (f : Failure) : Failure.ofJson? f.toJson = some f := by
  have hfields : f.toJson.fields? ["path", "category", "message"] =
      some [.string f.path, .string f.category.label, .string f.message] := by
    simp [Json.fields?, Failure.toJson, Json.member?]
  simp only [Failure.ofJson?, hfields, Json.string?, Category.ofJson?, Category.labelled?_label,
    Option.bind_eq_bind, Option.bind_some, Option.pure_def]

namespace Summary

/-- A summary of a time of the calendar and of counts that take at most 64 bits. -/
structure Fits (s : Summary) : Prop where
  startedAt : s.startedAt.IsValid
  filesScanned : s.filesScanned < 2 ^ 64
  filesModified : s.filesModified < 2 ^ 64
  ledger : ∀ entry ∈ s.ledger.counts, entry.2 < 2 ^ 64
  rules : ∀ t ∈ s.rules, t.files < 2 ^ 64
  failureCounts : ∀ entry ∈ s.failureCounts.toList, entry.2 < 2 ^ 64

variable {s : Summary}

theorem ofJson?_toJson (h : s.Fits) : Summary.ofJson? s.toJson = some s := by
  have hfields : s.toJson.fields? ["directory", "started_at", "dry_run", "files_scanned",
      "files_modified", "ledger", "rules", "failure_counts", "failures"] =
      some [.string s.directory, .string s.startedAt.format, .bool s.dryRun,
        .ofNat s.filesScanned, .ofNat s.filesModified, s.ledger.toJson,
        .array (s.rules.map Tally.toJson), s.failureCounts.toJson,
        .array (s.failures.map Failure.toJson)] := by
    simp [Json.fields?, Summary.toJson, Json.member?]
  have hrules := mapM_of_forall _ _ fun t ht => Tally.ofJson?_toJson (h.rules t ht)
  have hfailures := mapM_of_forall _ _ fun f (_ : f ∈ s.failures) => Failure.ofJson?_toJson f
  simp only [Summary.ofJson?, hfields, Json.string?, Json.bool?, Json.array?,
    Timestamp.read?_format h.startedAt, Json.count?_ofNat h.filesScanned,
    Json.count?_ofNat h.filesModified, Ledger.ofJson?_toJson h.ledger, hrules,
    FailureCounts.ofJson?_toJson h.failureCounts, hfailures, Option.bind_eq_bind,
    Option.bind_some, Option.pure_def]

/-- All numbers of a report are natural numbers. -/
theorem proper_toJson (s : Summary) : Json.Proper s.toJson := by
  have hledger : Json.Proper s.ledger.toJson :=
    .object (List.forall_mem_map.2 fun entry _ => Json.proper_ofNat entry.2)
  have hcounts : Json.Proper s.failureCounts.toJson :=
    .object (List.forall_mem_map.2 fun entry _ => Json.proper_ofNat entry.2)
  have hrule : ∀ t : Tally, Json.Proper t.toJson := by
    intro t
    refine .object ?_
    simp only [List.forall_mem_cons]
    exact ⟨.string _, .string _, Json.proper_ofNat _, nofun⟩
  have hfailure : ∀ f : Failure, Json.Proper f.toJson := by
    intro f
    refine .object ?_
    simp only [List.forall_mem_cons]
    exact ⟨.string _, .string _, .string _, nofun⟩
  refine .object ?_
  simp only [List.forall_mem_cons]
  exact ⟨.string _, .string _, .bool _, Json.proper_ofNat _, Json.proper_ofNat _, hledger,
    .array (List.forall_mem_map.2 fun t _ => hrule t), hcounts,
    .array (List.forall_mem_map.2 fun f _ => hfailure f), nofun⟩

/-- A report is a JSON text of the value of its summary, from which the summary is read back; and so
is the file that a report was saved to. -/
theorem ofReport?_of_saveReport (h : s.Fits) :
    Json.IsText s.report s.toJson ∧ Summary.ofReport? s.report = some s ∧
      ∀ {fs fs' : Storage.FileSystem} {path : String}, s.saveReport fs path = .ok fs' →
        ∃ bytes, fs'.read path = .ok bytes ∧ Text.Utf8.decode bytes = .ok s.report := by
  refine ⟨Json.isText_pretty s.proper_toJson, ?_, ?_⟩
  · rw [ofReport?, report, Json.read?_pretty s.proper_toJson, Option.bind_some, ofJson?_toJson h]
  · intro fs fs' path hsave
    cases hwrite : fs.write path s.report.toUTF8 with
    | error error =>
      rw [saveReport, hwrite] at hsave
      cases hsave
    | ok written =>
      rw [saveReport, hwrite] at hsave
      cases hsave
      exact ⟨_, Storage.FileSystem.read_of_write hwrite, Text.Utf8.decode_toUTF8 _⟩

/-- A run before our era with a leap second, a rule that was counted zero times, one category of
failures without a count and one with zero, and names that have to be escaped. -/
def awkward : Summary where
  directory := "a \"b\"\\"
  startedAt := ⟨-1, 2, 28, 23, 59, 60, 120⟩
  dryRun := true
  filesScanned := 2 ^ 64 - 1
  filesModified := 0
  ledger := Ledger.empty.set "\n\x01" 0
  rules := [⟨"", "é", 7⟩]
  failureCounts := { encoding := some 0 }
  failures := [⟨"\t.html", .write, "\x1f/"⟩]

theorem fits_awkward : awkward.Fits where
  startedAt := by decide
  filesScanned := by decide
  filesModified := by decide
  ledger := by decide
  rules := by decide
  failureCounts := by decide

/-- The awkward summary is saved to a new file and read from it. -/
theorem ofReport?_of_saveReport_awkward :
    awkward.Fits ∧ ∃ fs', awkward.saveReport (.empty "work") "report.json" = .ok fs' ∧
      Summary.ofReport? awkward.report = some awkward ∧
      ∃ bytes, fs'.read "report.json" = .ok bytes ∧
        Text.Utf8.decode bytes = .ok awkward.report := by
  obtain ⟨-, hread, hfile⟩ := ofReport?_of_saveReport fits_awkward
  have hwrite : (Storage.FileSystem.empty "work").write "report.json" awkward.report.toUTF8 =
      .ok _ :=
    Storage.FileSystem.write_of_vacant (by decide) (by decide) (by decide) _
  have hsave : ∃ fs', awkward.saveReport (.empty "work") "report.json" = .ok fs' :=
    ⟨_, by rw [saveReport, hwrite]; rfl⟩
  obtain ⟨fs', hsave⟩ := hsave
  exact ⟨fits_awkward, fs', hsave, hread, hfile hsave⟩

end Summary

end PageMend
