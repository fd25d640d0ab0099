import PageMend.CommandLine.Run
import PageMend.Proofs.Batch.Dots
import PageMend.Proofs.Batch.DryRun
import PageMend.Proofs.Storage.Write

/-!
# What a command leaves alone

Everything that a command can refuse is refused before the first page is touched, so a command that
is refused, asks for something else than a run or runs dry changes no entry but that of its report
(`Quiet`). Every other command leaves what the run over the directory leaves, with the configuration
that was loaded and what the options add to it (`run_framed`).

A configuration that is given by a path is the one which the file there holds, or there is no run.
-/

namespace PageMend

open Storage FileSystem

/-! ### The configuration in a file -/

/-- A file holds a configuration: it can be read, is text, describes the configuration, and that is
fit to run. -/
def Config.IsIn (config : Config) (fs : FileSystem) (path : String) : Prop :=
  ∃ bytes text, fs.read path = .ok bytes ∧ Text.Utf8.decode bytes = .ok text ∧
    Config.shape.read text = .ok config ∧ config.check = .ok ()

theorem mapError_eq_ok {α β γ : Type} {x : Except α γ} {f : α → β} {a : γ} :
    x.mapError f = .ok a ↔ x = .ok a := by
  cases x <;> simp [Except.mapError]

theorem loadFile_eq_ok_iff {fs : FileSystem} {path : String} {config : Config} :
    Config.loadFile fs path = .ok config ↔ config.IsIn fs path := by
  constructor
  · intro h
    cases hread : fs.read path with
    | error error => simp [Config.loadFile, hread, Except.mapError, bind, Except.bind] at h
    | ok bytes =>
      cases htext : Text.Utf8.decode bytes with
      | error fault => simp [Config.loadFile, hread, htext, Except.mapError, bind, Except.bind] at h
      | ok text =>
        cases hconfig : Config.shape.read text with
        | error error =>
          simp [Config.loadFile, hread, htext, hconfig, Except.mapError, bind, Except.bind] at h
        | ok found =>
          cases hcheck : found.check with
          | error reason =>
            simp [Config.loadFile, hread, htext, hconfig, hcheck, Except.mapError, bind,
              Except.bind] at h
          | ok =>
            obtain rfl : found = config := by
              simpa [Config.loadFile, hread, htext, hconfig, hcheck, Except.mapError, bind,
                Except.bind, pure, Except.pure] using h
            exact ⟨bytes, text, hread, htext, hconfig, hcheck⟩
  · rintro ⟨bytes, text, hread, htext, hconfig, hcheck⟩
    simp only [Config.loadFile, hread, htext, hconfig, hcheck, Except.mapError, bind, Except.bind,
      pure, Except.pure]

/-- What was loaded is fit to run. -/
theorem check_of_load {fs : FileSystem} {path : Option String} {config : Config}
    (h : Config.load fs path = .ok config) : config.check = .ok () := by
  cases path with
  | none =>
    obtain rfl := Except.ok.inj h
    decide
  | some path =>
    obtain ⟨_, _, _, _, _, hcheck⟩ := loadFile_eq_ok_iff.1 h
    exact hcheck

namespace CommandLine

variable {fs fs' : FileSystem} {occasion : Occasion} {arguments : List String}

/-! ### The entry of the report -/

/-- All entries are the same but for one, to which the path of the report then leads. -/
structure SameBut (report : Option String) (fs fs' : FileSystem) : Prop where
  workingDirectory : fs'.workingDirectory = fs.workingDirectory
  entryAt : ∀ l, fs'.entryAt? l ≠ fs.entryAt? l →
    ∃ path entry, report = some path ∧ fs'.locate path = .ok (.taken l entry)

theorem SameBut.refl (report : Option String) (fs : FileSystem) : SameBut report fs fs where
  workingDirectory := rfl
  entryAt _ h := absurd rfl h

theorem sameBut_of_write {path : String} {bytes : ByteArray} (h : fs.write path bytes = .ok fs') :
    SameBut (some path) fs fs' := by
  obtain ⟨l, hl, rfl, hfound⟩ := exists_of_write h
  refine ⟨rfl, fun k hk => ⟨path, .file bytes, rfl, ?_⟩⟩
  obtain rfl : k = l := by
    by_contra hne
    exact hk (by rw [entryAt?_put hl, if_neg hne])
  exact hfound

/-- What is left to do after a run changes the entry of the report at most. -/
theorem sameBut_finish (report : Option String) (output : Nat → String) (summary : Summary)
    (fs : FileSystem) : SameBut report fs (finish report output summary fs).fs := by
  cases report with
  | none => exact .refl _ fs
  | some path =>
    rw [finish]
    cases hsave : summary.saveReport fs path with
    | error error => exact .refl _ fs
    | ok saved => exact sameBut_of_write (mapError_eq_ok.1 hsave)

/-! ### Commands that leave the pages alone -/

/-- A command is refused, fails before it runs, asks for something else, or runs dry. -/
inductive Quiet (fs : FileSystem) (arguments : List String) (outcome : Outcome) : Prop
  /-- The arguments make no sense. -/
  | refused (h : outcome.exitCode = 2)
  /-- What it prints as errors starts with a cross mark. -/
  | failed (h : ['❌'] <+: outcome.errors.toList)
  | help (h : Command.ofArguments arguments = .ok .help)
  | printDefaultConfig (h : Command.ofArguments arguments = .ok .printDefaultConfig)
  | dryRun {directory : String} {options : Options} {config : Config}
      (h : Command.ofArguments arguments = .ok (.mend directory options))
      (hload : Config.load fs options.config = .ok config)
      (hdry : options.dryRun = true ∨ config.dryRun = true)

/-- The path of the report that the arguments ask for. -/
def reportOf (arguments : List String) : Option String :=
  match Command.ofArguments arguments with
  | .ok (.mend _ options) => options.report
  | _ => none

theorem Options.dryRun_override {options : Options} {config : Config} :
    (options.override config).dryRun = true ↔ options.dryRun = true ∨ config.dryRun = true := by
  rw [Options.override, Bool.or_eq_true, or_comm]

/-- The options do not touch what makes a configuration fit to run. -/
theorem Options.check_override (options : Options) (config : Config) :
    (options.override config).check = config.check := rfl

/-- What is left to do after a run refuses nothing. -/
theorem not_refused_finish (report : Option String) (output : Nat → String) (summary : Summary)
    (fs : FileSystem) :
    (finish report output summary fs).exitCode ≠ 2 ∧
      ¬['❌'] <+: (finish report output summary fs).errors.toList := by
  cases report with
  | none => exact ⟨nofun, by simp [finish]⟩
  | some path =>
    rw [finish]
    cases summary.saveReport fs path with
    | error error => exact ⟨nofun, by simp⟩
    | ok saved => exact ⟨nofun, by simp⟩

/-- Of a configuration that was loaded a runner is made, and its run prints the dots for its
files. -/
theorem mend_of_load {directory : String} {options : Options} {config : Config}
    (hload : Config.load fs options.config = .ok config) :
    mend fs occasion directory options =
      match Batch.run (options.override config) .standard occasion.stamp occasion.startedAt fs
        directory with
      | .error error =>
        { fs, exitCode := 1, output := fun _ => heading (options.override config) directory,
          errors := "❌ Error: " ++ error.message ++ "\n" }
      | .ok (fs', summary) =>
        finish options.report (fun n => heading (options.override config) directory ++
          Batch.dots (options.override config).progress summary.filesScanned ++
          footing summary n) summary fs' := by
  have hfit := (options.check_override config).trans (check_of_load hload)
  simp only [mend, hload, Batch.Runner.new_of_check hfit, Batch.Runner.run, Batch.runShown_eq]
  cases Batch.run (options.override config) .standard occasion.stamp occasion.startedAt fs
    directory with
  | error error => rfl
  | ok done => rfl

/-- Mending is refused before anything is done, or it runs over the directory with the configuration
that was loaded. -/
theorem mend_cases (fs : FileSystem) (occasion : Occasion) (directory : String)
    (options : Options) :
    ((mend fs occasion directory options).fs = fs ∧
        ['❌'] <+: (mend fs occasion directory options).errors.toList) ∨
      ∃ config fs' summary output, Config.load fs options.config = .ok config ∧
        Batch.run (options.override config) .standard occasion.stamp occasion.startedAt fs
          directory = .ok (fs', summary) ∧
        mend fs occasion directory options = finish options.report output summary fs' := by
  cases hload : Config.load fs options.config with
  | error error =>
    rw [mend, hload]
    exact .inl ⟨rfl, by simp⟩
  | ok config =>
    rw [mend_of_load hload]
    cases hrun : Batch.run (options.override config) .standard occasion.stamp occasion.startedAt fs
      directory with
    | error error => exact .inl ⟨rfl, by simp⟩
    | ok done => exact .inr ⟨config, done.1, done.2, _, rfl, hrun, rfl⟩

/-- Of the commands that mend pages, the quiet ones are refused or run dry. -/
theorem sameBut_mend_of_quiet {directory : String} {options : Options}
    (hcommand : Command.ofArguments arguments = .ok (.mend directory options))
    (hquiet : Quiet fs arguments (mend fs occasion directory options)) :
    SameBut options.report fs (mend fs occasion directory options).fs := by
  rcases mend_cases fs occasion directory options with
    ⟨hfs, -⟩ | ⟨config, fs', summary, output, hload, hrun, hmend⟩
  · rw [hfs]
    exact .refl _ fs
  · rw [hmend] at hquiet ⊢
    obtain ⟨hcode, hcross⟩ := not_refused_finish options.report output summary fs'
    cases hquiet with
    | refused h => exact absurd h hcode
    | failed h => exact absurd h hcross
    | help h => exact nomatch h.symm.trans hcommand
    | printDefaultConfig h => exact nomatch h.symm.trans hcommand
    | dryRun h hloaded hdry =>
      obtain ⟨-, rfl⟩ := Command.mend.inj (Except.ok.inj (hcommand.symm.trans h))
      obtain rfl := Except.ok.inj (hloaded.symm.trans hload)
      obtain rfl := Batch.fs_run_of_dryRun (Options.dryRun_override.2 hdry) hrun
      exact sameBut_finish options.report output summary _

/-- All others leave what the run leaves. -/
theorem exists_run_of_not_quiet {directory : String} {options : Options}
    (hquiet : ¬Quiet fs arguments (mend fs occasion directory options)) :
    ∃ config fs' summary, Config.load fs options.config = .ok config ∧
      Batch.run (options.override config) .standard occasion.stamp occasion.startedAt fs
        directory = .ok (fs', summary) ∧
      SameBut options.report fs' (mend fs occasion directory options).fs := by
  rcases mend_cases fs occasion directory options with
    ⟨-, hcross⟩ | ⟨config, fs', summary, output, hload, hrun, hmend⟩
  · exact absurd (.failed hcross) hquiet
  · refine ⟨config, fs', summary, hload, hrun, ?_⟩
    rw [hmend]
    exact sameBut_finish options.report output summary fs'

/-- Without a configuration nothing is done. -/
theorem mend_of_not_isIn {directory path : String} {options : Options}
    (hpath : options.config = some path) (h : ∀ config : Config, ¬config.IsIn fs path) :
    (mend fs occasion directory options).fs = fs ∧
      (mend fs occasion directory options).exitCode = 1 ∧
      (∀ milliseconds, (mend fs occasion directory options).output milliseconds = "") ∧
      ['❌'] <+: (mend fs occasion directory options).errors.toList := by
  cases hload : Config.load fs options.config with
  | error error =>
    rw [mend, hload]
    exact ⟨rfl, rfl, fun _ => rfl, by simp⟩
  | ok config =>
    rw [hpath] at hload
    exact absurd (loadFile_eq_ok_iff.1 hload) (h config)

/-- A command that leaves the pages alone changes no entry but that of its report. Every other one
leaves what the run over the directory leaves, with the configuration that was loaded, but for the
entry of the report. Where a path is given for the configuration, that is the one which the file
there holds, and if there is none nothing is run. -/
theorem run_framed (fs : FileSystem) (occasion : Occasion) (arguments : List String) :
    (Quiet fs arguments (run fs occasion arguments) →
      SameBut (reportOf arguments) fs (run fs occasion arguments).fs) ∧
    (¬Quiet fs arguments (run fs occasion arguments) →
      ∃ directory options config fs' summary,
        Command.ofArguments arguments = .ok (.mend directory options) ∧
        Config.load fs options.config = .ok config ∧
        Batch.run (options.override config) .standard occasion.stamp occasion.startedAt fs
          directory = .ok (fs', summary) ∧
        SameBut options.report fs' (run fs occasion arguments).fs) ∧
    ∀ directory options path,
      Command.ofArguments arguments = .ok (.mend directory options) →
      options.config = some path →
      (∀ config, Config.load fs options.config = .ok config ↔ config.IsIn fs path) ∧
      ((∀ config : Config, ¬config.IsIn fs path) →
        (run fs occasion arguments).fs = fs ∧ (run fs occasion arguments).exitCode = 1 ∧
        (∀ milliseconds, (run fs occasion arguments).output milliseconds = "") ∧
        ['❌'] <+: (run fs occasion arguments).errors.toList) := by
  cases hcommand : Command.ofArguments arguments with
  | error error =>
    have hrun : run fs occasion arguments =
        { fs, exitCode := 2, errors := "error: " ++ error.message ++ "\n" } := by
      rw [run, hcommand]
    rw [hrun]
    exact ⟨fun _ => .refl _ fs, fun hquiet => absurd (.refused rfl) hquiet, nofun⟩
  | ok command =>
    have hrun : run fs occasion arguments = command.run fs occasion := by
      rw [run, hcommand]
    rw [hrun]
    cases command with
    | help => exact ⟨fun _ => .refl _ fs, fun hquiet => absurd (.help hcommand) hquiet, nofun⟩
    | printDefaultConfig =>
      exact ⟨fun _ => .refl _ fs, fun hquiet => absurd (.printDefaultConfig hcommand) hquiet, nofun⟩
    | mend directory options =>
      have hreport : reportOf arguments = options.report := by
        rw [reportOf, hcommand]
      rw [Command.run, hreport]
      refine ⟨sameBut_mend_of_quiet hcommand, fun hquiet => ?_, ?_⟩
      · obtain ⟨config, fs', summary, hload, hrun, hsame⟩ :=
          exists_run_of_not_quiet hquiet
        exact ⟨directory, options, config, fs', summary, rfl, hload, hrun, hsame⟩
      · intro directory' options' path h hpath
        obtain ⟨rfl, rfl⟩ := Command.mend.inj (Except.ok.inj h)
        refine ⟨fun config => ?_, mend_of_not_isIn hpath⟩
        rw [hpath]
        exact loadFile_eq_ok_iff

/-! ### Commands for the small directory -/

/-- The occasion of the commands below. -/
def sampleOccasion : Occasion := ⟨.ofUnixTime 0 0, "0"⟩

/-- The run over the small directory mends one page, and leaves all other entries. -/
theorem exists_run_sample :
    ∃ fs' summary, Batch.run {} .standard "0" (.ofUnixTime 0 0) Batch.sample "pages" =
        .ok (fs', summary) ∧
      fs'.entryAt? ["pages", "a.html"] = some (.file "<title>A</title>".toUTF8) ∧
      fs'.workingDirectory = [] ∧
      ∀ l, l ∉ [["pages", "a.html"], ["pages", "b.html"]] →
        fs'.entryAt? l = Batch.sample.entryAt? l := by
  have hlisted : ∀ name ∈ ["a.html", "b.html"], (IsName name ∧ Fits name) ∧
      Batch.sample.entryAt? (["pages"] ++ [name]) = some (.file (Batch.sampleContents name)) ∧
      Batch.sample.entryAt? (["pages"] ++ [temporaryName "0" name]) = none := by decide
  have hpages : ∀ name ∈ ["a.html", "b.html"],
      Batch.IsPage Batch.sample ["pages"] "0" name (Batch.sampleContents name) := by
    intro name hname
    obtain ⟨⟨hvalid, hfits⟩, hentry, hfresh⟩ := hlisted name hname
    exact ⟨hvalid, hfits, hentry, hfresh⟩
  obtain ⟨fs', hloop, hmapped⟩ := Batch.exists_mendAll {} .standard ⟨by decide, by decide⟩
    (by decide) { fs := Batch.sample } (.of_locate Batch.locate_sample) hpages
  have hrun := Batch.run_eq {} .standard "0" (.ofUnixTime 0 0) Batch.locate_sample
  rw [Batch.pageNames_sample, hloop] at hrun
  have hbytes : (Batch.fate {} .standard "0" "pages" "a.html"
      (Batch.sampleContents "a.html")).2 = "<title>A</title>".toUTF8 := by decide +kernel
  refine ⟨fs', _, hrun, ?_, hmapped.workingDirectory, fun l hl => hmapped.other l ?_⟩
  · rw [← hbytes]
    exact hmapped.page "a.html" (by decide)
  · rintro name hname rfl
    rcases List.mem_pair.1 hname with rfl | rfl
    · exact hl (by decide)
    · exact hl (by decide)

/-- Mending the small directory runs over it, if the options say no more than where the report
goes. -/
theorem mend_sample (options : Options) {fs' : FileSystem} {summary : Summary}
    (hconfig : options.config = none) (hoverride : options.override {} = {})
    (hrun : Batch.run {} .standard "0" (.ofUnixTime 0 0) Batch.sample "pages" =
      .ok (fs', summary)) :
    ∃ output, mend Batch.sample sampleOccasion "pages" options =
      finish options.report output summary fs' := by
  have hload : Config.load Batch.sample options.config = .ok {} := by rw [hconfig, Config.load]
  have hrun : Batch.run {} .standard sampleOccasion.stamp sampleOccasion.startedAt Batch.sample
      "pages" = .ok (fs', summary) := hrun
  rw [mend_of_load hload, hoverride, hrun]
  exact ⟨_, rfl⟩

/-- A run, and a dry one. -/
theorem run_framed_sample :
    SameBut none Batch.sample (run Batch.sample sampleOccasion ["pages", "--dry-run"]).fs ∧
      ∃ config fs' summary, Config.load Batch.sample none = .ok config ∧
        Batch.run config .standard "0" (.ofUnixTime 0 0) Batch.sample "pages" =
          .ok (fs', summary) ∧
        SameBut none fs' (run Batch.sample sampleOccasion ["pages"]).fs := by
  have hdry : Command.ofArguments ["pages", "--dry-run"] =
      .ok (.mend "pages" { dryRun := true }) := by decide +kernel
  have hcommand : Command.ofArguments ["pages"] = .ok (.mend "pages" {}) := by decide +kernel
  constructor
  · have hreport : reportOf ["pages", "--dry-run"] = none := by rw [reportOf, hdry]
    rw [← hreport]
    exact (run_framed Batch.sample sampleOccasion _).1 (.dryRun hdry rfl (.inl rfl))
  · obtain ⟨after, summary, hrun, -⟩ := exists_run_sample
    obtain ⟨output, hmend⟩ := mend_sample {} rfl rfl hrun
    have hoccasion : run Batch.sample sampleOccasion ["pages"] = { fs := after, output } := by
      simp only [run, hcommand, Command.run, hmend, finish]
    have hquiet : ¬Quiet Batch.sample ["pages"] (run Batch.sample sampleOccasion ["pages"]) := by
      rw [hoccasion]
      intro hquiet
      cases hquiet with
      | refused h => cases h
      | failed h => simp at h
      | help h => exact nomatch h.symm.trans hcommand
      | printDefaultConfig h => exact nomatch h.symm.trans hcommand
      | dryRun h hload hdry =>
        obtain ⟨rfl, rfl⟩ := Command.mend.inj (Except.ok.inj (hcommand.symm.trans h))
        obtain rfl := Except.ok.inj hload
        exact absurd hdry (by decide)
    obtain ⟨directory, options, config, fs', summary', h, hload, hran, hsame⟩ :=
      (run_framed Batch.sample sampleOccasion ["pages"]).2.1 hquiet
    obtain ⟨rfl, rfl⟩ := Command.mend.inj (Except.ok.inj (hcommand.symm.trans h))
    have hdefault : Options.override {} config = config := by
      simp [Options.override]
    rw [hdefault] at hran
    exact ⟨config, fs', summary', hload, hran, hsame⟩

/-- Help is no run, though nothing is refused; and a path may hold a line that starts with a cross
mark: its report cannot be saved, but its pages were mended. -/
theorem run_help_and_cross_mark :
    (∃ fs' summary,
      Batch.run {} .standard "0" (.ofUnixTime 0 0) Batch.sample "pages" = .ok (fs', summary) ∧
      (run Batch.sample sampleOccasion ["pages", "--help"]).fs.entryAt? ["pages", "a.html"] ≠
        fs'.entryAt? ["pages", "a.html"] ∧
      (run Batch.sample sampleOccasion ["pages", "--help"]).exitCode = 0 ∧
      (run Batch.sample sampleOccasion ["pages", "--help"]).errors = "") ∧
    ['\n', '❌'] <:+:
      (run Batch.sample sampleOccasion ["pages", "--report", "no\n❌/r.json"]).errors.toList ∧
    (run Batch.sample sampleOccasion ["pages", "--report", "no\n❌/r.json"]).fs.entryAt?
      ["pages", "a.html"] ≠ Batch.sample.entryAt? ["pages", "a.html"] ∧
    ∀ place, (run Batch.sample sampleOccasion ["pages", "--report", "no\n❌/r.json"]).fs.locate
      "no\n❌/r.json" ≠ .ok place := by
  have hhelp : Command.ofArguments ["pages", "--help"] = .ok .help := by decide +kernel
  have hcommand : Command.ofArguments ["pages", "--report", "no\n❌/r.json"] =
      .ok (.mend "pages" { report := some "no\n❌/r.json" }) := by decide +kernel
  obtain ⟨fs', summary, hrun, hpage, hworking, hother⟩ := exists_run_sample
  have hbefore : Batch.sample.entryAt? ["pages", "a.html"] ≠
      some (.file "<title>A</title>".toUTF8) := by decide +kernel
  have hwalk : ∀ making, fs'.walk making maxLinks (fs'.start "no\n❌/r.json")
      (steps "no\n❌/r.json") = .error .notFound := by
    intro making
    have hsteps : steps "no\n❌/r.json" = ["no\n❌", "r.json"] := by decide +kernel
    have hlooked : IsLookedUp "no\n❌" := isLookedUp (by decide +kernel) (by decide +kernel)
    have hnone : fs'.entryAt? ([] ++ ["no\n❌"]) = none :=
      (hother _ (by decide)).trans (by decide +kernel)
    rw [start, hworking, ite_self, hsteps, walk_lookUp hlooked, hnone]
    simp
  have hcheck : checkPath "no\n❌/r.json" = .ok () := by decide +kernel
  have hsave : summary.saveReport fs' "no\n❌/r.json" =
      .error ⟨"no\n❌/r.json", .notFound⟩ := by
    rw [Summary.saveReport, FileSystem.write, hcheck, hwalk]
    rfl
  obtain ⟨output, hmend⟩ :=
    mend_sample { report := some "no\n❌/r.json" } rfl rfl hrun
  have houtcome : run Batch.sample sampleOccasion ["pages", "--report", "no\n❌/r.json"] =
      { fs := fs', output, exitCode := 1,
        errors := "Error: write report no\n❌/r.json\n\nCaused by:\n    " ++
          OsError.notFound.message ++ "\n" } := by
    simp only [run, hcommand, Command.run, hmend, finish, hsave]
    rfl
  have hlocate : ∀ place, fs'.locate "no\n❌/r.json" ≠ .ok place := by
    intro place hplace
    rw [locate, hcheck] at hplace
    cases (hwalk false).symm.trans hplace
  simp only [houtcome]
  refine ⟨⟨fs', summary, hrun, ?_, ?_, ?_⟩, ?_, ?_, hlocate⟩
  · simp only [run, hhelp, Command.run, hpage]
    exact hbefore
  · simp only [run, hhelp, Command.run]
  · simp only [run, hhelp, Command.run]
  · exact ⟨"Error: write report no".toList, _, rfl⟩
  · rw [hpage]
    exact hbefore.symm

end CommandLine

end PageMend
