import PageMend.Batch.Run
import PageMend.Proofs.Batch.Ledger
import PageMend.Proofs.Page.Save
import PageMend.Proofs.Rule.Mendable

/-!
# The pages of a run stand alone

What becomes of a page in a run, and the bytes that its file has afterwards, are a matter of the
configuration and of its own name and bytes: `fate`. A run is the map of `fate` over the pages of
its directory. It changes no other entry and leaves no temporary file (`Isolated`), and its summary
lists and counts the fates one by one (`Tallied`).

`exists_mendFile` says all that mending one file can do, and `exists_mendAll` carries it over
the loop: the file system that one page leaves to the next one has the same directories, the same
other pages and the same free names.
-/

namespace PageMend

open Storage FileSystem

/-! ### What mending leaves alone -/

theorem path_apply (config : Config) (page : Page) (r : Rule) :
    (r.apply config page).1.path = page.path := by
  rw [Rule.apply_eq_with_tree]

theorem path_applyRules (config : Config) (rules : List Rule) (page : Page) :
    (applyRules config rules page).1.path = page.path := by
  induction rules generalizing page with
  | nil => rfl
  | cons r rs ih => exact (ih _).trans (path_apply config page r)

theorem path_mend (config : Config) (page : Page) : (mend config page).1.path = page.path := by
  have h := path_applyRules config (activeRules config.pipeline) page
  simp only [mend]
  split <;> exact h

namespace Batch

variable {config : Config} {loader : Loader} {stamp directory name : String}
  {fs fs' : FileSystem} {loc : Location} {bytes : ByteArray}

/-! ### The fate of a page -/

/-- What becomes of a page, and the bytes that its file then has. -/
def fate (config : Config) (loader : Loader) (stamp directory name : String) (bytes : ByteArray) :
    Outcome × ByteArray :=
  let path := Path.join directory name
  if maxPathLength ≤ path.utf8ByteSize then
    (.failed .io ("Failed to parse: " ++ (LoadError.io .nameTooLong).message), bytes)
  else
    match loader.pageOf path bytes with
    | .error error => (.failed error.category ("Failed to parse: " ++ error.message), bytes)
    | .ok page =>
      let (page, fired) := mend config page
      if fired.isEmpty then (.untouched, bytes)
      else if config.dryRun then (.mended fired, bytes)
      else
        match saveFault? stamp directory name with
        | some error => (.failed .write error.message, bytes)
        | none => (.mended fired, page.serialize.toUTF8)

/-- A page that lies behind a directory, and its temporary name, which is free. -/
structure IsPage (fs : FileSystem) (loc : Location) (stamp name : String) (bytes : ByteArray) :
    Prop where
  isName : IsName name
  fits : Fits name
  entryAt : fs.entryAt? (loc ++ [name]) = some (.file bytes)
  fresh : fs.entryAt? (loc ++ [temporaryName stamp name]) = none

/-- Mending a file is its fate, and changes nothing but the file. -/
theorem exists_mendFile (config : Config) (loader : Loader)
    (hdirectory : fs.LeadsTo directory loc) (hstamp : IsStamp stamp)
    (hpage : IsPage fs loc stamp name bytes) :
    ∃ fs', mendFile config loader stamp fs (Path.join directory name) =
        (fs', (fate config loader stamp directory name bytes).1) ∧
      Replaced fs fs' (loc ++ [name]) (fate config loader stamp directory name bytes).2 := by
  -- in all cases but the last nothing is written
  have hkept : Replaced fs fs (loc ++ [name]) bytes := .refl hpage.entryAt
  rw [mendFile, fate, load_join loader hdirectory hpage.isName hpage.fits hpage.entryAt]
  by_cases hlong : maxPathLength ≤ (Path.join directory name).utf8ByteSize
  · simp only [if_pos hlong]
    exact ⟨fs, rfl, hkept⟩
  simp only [if_neg hlong]
  cases hload : loader.pageOf (Path.join directory name) bytes with
  | error error => exact ⟨fs, rfl, hkept⟩
  | ok page =>
    by_cases hfired : (mend config page).2.isEmpty = true
    · simp only [if_pos hfired]
      exact ⟨fs, rfl, hkept⟩
    simp only [if_neg hfired]
    by_cases hdry : config.dryRun = true
    · simp only [if_pos hdry]
      exact ⟨fs, rfl, hkept⟩
    simp only [if_neg hdry]
    have hpath : (mend config page).1.path = Path.join directory name :=
      (path_mend config page).trans (path_of_pageOf hload)
    cases hfault : saveFault? stamp directory name with
    | some error =>
      rw [rewrite_of_fault hdirectory hpage.isName hstamp hpath (modified_mend hfired) hpage.fresh
        hfault]
      exact ⟨fs, rfl, hkept⟩
    | none =>
      obtain ⟨fs', hrewrite, hreplaced⟩ := exists_rewrite hdirectory hpage.isName hstamp hpath
        (modified_mend hfired) hpage.fresh hpage.fits (Nat.not_le.1 hlong) hpage.entryAt hfault
      rw [hrewrite]
      exact ⟨fs', rfl, hreplaced⟩

/-! ### The loop -/

/-- A page is still there when another one was mended. -/
theorem IsPage.replaced {other : String} {before after : ByteArray}
    (h : IsPage fs loc stamp name bytes) (hne : name ≠ other)
    (hother : fs.entryAt? (loc ++ [other]) = some (.file before))
    (hreplaced : Replaced fs fs' (loc ++ [other]) after) : IsPage fs' loc stamp name bytes where
  isName := h.isName
  fits := h.fits
  entryAt := by
    rw [hreplaced.entryAt, if_neg (by simpa using hne), h.entryAt]
  fresh := by
    rw [hreplaced.entryAt, if_neg, h.fresh]
    -- the other page has an entry, this temporary name has none
    intro he
    rw [← he, h.fresh] at hother
    cases hother

/-- The pages of those names have new bytes, and all else is as it was. -/
structure Mapped (loc : Location) (names : List String) (bytesOf : String → ByteArray)
    (fs fs' : FileSystem) : Prop where
  page : ∀ name ∈ names, fs'.entryAt? (loc ++ [name]) = some (.file (bytesOf name))
  other : ∀ l, (∀ name ∈ names, l ≠ loc ++ [name]) → fs'.entryAt? l = fs.entryAt? l
  wellFormed : fs.WellFormed → fs'.WellFormed
  workingDirectory : fs'.workingDirectory = fs.workingDirectory

theorem Mapped.nil (fs : FileSystem) (bytesOf : String → ByteArray) :
    Mapped loc [] bytesOf fs fs where
  page := by simp
  other _ _ := rfl
  wellFormed := id
  workingDirectory := rfl

theorem Mapped.cons {fs'' : FileSystem} {names : List String} {bytesOf : String → ByteArray}
    (hhead : Replaced fs fs' (loc ++ [name]) (bytesOf name))
    (htail : Mapped loc names bytesOf fs' fs'') (hname : name ∉ names) :
    Mapped loc (name :: names) bytesOf fs fs'' where
  page other hother := by
    rcases List.mem_cons.1 hother with rfl | hother
    · rw [htail.other, hhead.entryAt, if_pos rfl]
      intro n hn he
      obtain rfl : other = n := by simpa using he
      exact hname hn
    · exact htail.page other hother
  other l hl := by
    rw [htail.other l fun n hn => hl n (List.mem_cons_of_mem name hn), hhead.entryAt,
      if_neg (hl name List.mem_cons_self)]
  wellFormed hfs := htail.wellFormed (hhead.wellFormed hfs)
  workingDirectory := htail.workingDirectory.trans hhead.workingDirectory

/-- The progress after the pages of those names were mended. -/
def mendAll (config : Config) (loader : Loader) (stamp directory : String) (names : List String)
    (p : Progress) : Progress :=
  (names.map (Path.join directory)).foldl (Progress.step config loader stamp) p

/-- The progress in which the outcomes of pages were entered. -/
def enterAll (directory : String) (outcomeOf : String → Outcome) (names : List String)
    (p : Progress) : Progress :=
  names.foldl (fun p name => p.enter (Path.join directory name) (outcomeOf name)) p

theorem enter_with_fs (p : Progress) (path : String) (outcome : Outcome) (fs : FileSystem) :
    Progress.enter { p with fs } path outcome = { p.enter path outcome with fs } := by
  cases outcome <;> rfl

theorem enterAll_with_fs (directory : String) (outcomeOf : String → Outcome) (names : List String)
    (p : Progress) (fs : FileSystem) :
    enterAll directory outcomeOf names { p with fs } =
      { enterAll directory outcomeOf names p with fs } := by
  induction names generalizing p with
  | nil => rfl
  | cons name names ih =>
    simp only [enterAll, List.foldl_cons, enter_with_fs] at ih ⊢
    exact ih _

/-- The loop mends the first page and enters its outcome, and goes on behind it. -/
theorem mendAll_cons {config : Config} {loader : Loader} {outcome : Outcome} {p : Progress}
    (hmend : mendFile config loader stamp p.fs (Path.join directory name) = (fs', outcome))
    (names : List String) :
    mendAll config loader stamp directory (name :: names) p =
      mendAll config loader stamp directory names
        { p.enter (Path.join directory name) outcome with fs := fs' } := by
  have hstep : p.step config loader stamp (Path.join directory name) =
      { p.enter (Path.join directory name) outcome with fs := fs' } := by
    rw [Progress.step, hmend]
    exact enter_with_fs p _ _ fs'
  rw [mendAll, List.map_cons, List.foldl_cons, hstep]
  rfl

/-- The loop maps the fate over the pages, whatever it has done before. -/
theorem exists_mendAll (config : Config) (loader : Loader) {names : List String}
    {contents : String → ByteArray}
    (hstamp : IsStamp stamp) (hnodup : names.Nodup) (p : Progress)
    (hdirectory : p.fs.LeadsTo directory loc)
    (hpages : ∀ name ∈ names, IsPage p.fs loc stamp name (contents name)) :
    ∃ fs', mendAll config loader stamp directory names p =
        { enterAll directory
            (fun name => (fate config loader stamp directory name (contents name)).1) names p
          with fs := fs' } ∧
      Mapped loc names (fun name => (fate config loader stamp directory name (contents name)).2)
        p.fs fs' := by
  induction names generalizing p with
  | nil => exact ⟨p.fs, rfl, .nil _ _⟩
  | cons name names ih =>
    have hpage := hpages name List.mem_cons_self
    obtain ⟨hname, hnodup⟩ := List.nodup_cons.1 hnodup
    obtain ⟨fs₁, hmend, hreplaced⟩ := exists_mendFile config loader hdirectory hstamp hpage
    let p₁ : Progress := { p.enter (Path.join directory name)
      (fate config loader stamp directory name (contents name)).1 with fs := fs₁ }
    -- the pages behind this one are as they were, and their temporary names are still free
    have hrest : ∀ other ∈ names, IsPage p₁.fs loc stamp other (contents other) := by
      intro other hother
      have hne : other ≠ name := fun he => hname (he ▸ hother)
      exact (hpages other (List.mem_cons_of_mem name hother)).replaced hne hpage.entryAt hreplaced
    obtain ⟨fs', hloop, hmapped⟩ :=
      ih hnodup p₁ (hreplaced.leadsTo hpage.entryAt hdirectory) hrest
    refine ⟨fs', ?_, .cons hreplaced hmapped hname⟩
    rw [mendAll_cons hmend, hloop, enterAll_with_fs]
    rfl

/-! ### The summary -/

/-- Whether an outcome counts its page as modified. -/
def Outcome.isMended : Outcome → Bool
  | .mended _ => true
  | .untouched | .failed _ _ => false

/-- The names that an outcome records in the ledger. -/
def Outcome.marks : Outcome → List String
  | .mended fired => fired.map Rule.name
  | .untouched | .failed _ _ => []

/-- The failure that an outcome lists. -/
def Outcome.failure? (path : String) : Outcome → Option Failure
  | .failed category message => some ⟨path, category, message⟩
  | .untouched | .mended _ => none

/-- A summary lists and counts outcomes, one of each page. -/
structure Tallied (directory : String) (names : List String) (outcomeOf : String → Outcome)
    (s : Summary) : Prop where
  filesScanned : s.filesScanned = names.length
  filesModified : s.filesModified = names.countP fun name => (outcomeOf name).isMended
  ledger : ∀ rule,
    s.ledger.count rule = (names.flatMap fun name => (outcomeOf name).marks).count rule
  failures : s.failures =
    names.filterMap fun name => (outcomeOf name).failure? (Path.join directory name)
  failureCounts : ∀ category,
    s.failureCounts.count category = s.failures.countP fun failure => failure.category = category

theorem count_foldl_record (fired : List Rule) (l : Ledger) (rule : String) :
    (fired.foldl (fun l r => l.record r.name) l).count rule =
      l.count rule + (fired.map Rule.name).count rule := by
  rw [← l.count_recordAll, Ledger.recordAll, List.foldl_map]

section Tally

variable {startedAt : Timestamp} {names : List String} {outcomeOf : String → Outcome}
  {p : Progress}

/-- An outcome that is entered is tallied. -/
theorem Tallied.enter
    (h : Tallied directory names outcomeOf (p.summary config startedAt directory names.length))
    (name : String) :
    Tallied directory (names ++ [name]) outcomeOf
      ((p.enter (Path.join directory name) (outcomeOf name)).summary config startedAt directory
        (names ++ [name]).length) where
  filesScanned := rfl
  filesModified := by
    have hmodified : p.filesModified = _ := h.filesModified
    rw [List.countP_append, ← hmodified]
    cases ho : outcomeOf name <;> simp [ho, Progress.enter, Progress.summary, Outcome.isMended]
  ledger rule := by
    have hledger : p.ledger.count rule = _ := h.ledger rule
    rw [List.flatMap_append, List.count_append, ← hledger]
    cases ho : outcomeOf name with
    | mended fired =>
      simpa [ho, Progress.enter, Progress.summary, Outcome.marks] using
        count_foldl_record fired p.ledger rule
    | _ => simp [ho, Progress.enter, Progress.summary, Outcome.marks]
  failures := by
    have hfailures : p.failures = _ := h.failures
    rw [List.filterMap_append, ← hfailures]
    cases ho : outcomeOf name <;>
      simp [ho, Progress.enter, Progress.summary, Outcome.failure?]
  failureCounts category := by
    have hcounts : p.failureCounts.count category = p.failures.countP _ :=
      h.failureCounts category
    cases ho : outcomeOf name with
    | failed found message =>
      simp [Progress.enter, Progress.summary, hcounts, List.countP_singleton]
    | _ => simpa [Progress.enter, Progress.summary] using hcounts

theorem Tallied.enterAll {done : List String}
    (h : Tallied directory done outcomeOf (p.summary config startedAt directory done.length))
    (names : List String) :
    Tallied directory (done ++ names) outcomeOf
      ((enterAll directory outcomeOf names p).summary config startedAt directory
        (done ++ names).length) := by
  induction names generalizing done p with
  | nil =>
    rw [List.append_nil]
    exact h
  | cons name names ih =>
    have hrest := ih (h.enter name)
    rwa [List.append_assoc] at hrest

theorem Tallied.nil (fs : FileSystem) :
    Tallied directory [] outcomeOf
      ((Progress.mk fs .empty 0 {} []).summary config startedAt directory 0) where
  filesScanned := rfl
  filesModified := rfl
  ledger _ := rfl
  failures := rfl
  failureCounts category := by cases category <;> rfl

end Tally

/-! ### A whole run -/

/-- The names of the pages of a directory, in ascending order. -/
def pageNames (config : Config) (fs : FileSystem) (directory : String) (loc : Location) :
    List String :=
  ((fs.names loc).filter (isCandidate config fs directory)).mergeSort (· ≤ ·)

theorem mem_pageNames :
    name ∈ pageNames config fs directory loc ↔
      name ∈ fs.names loc ∧ isCandidate config fs directory name = true := by
  rw [pageNames, List.mem_mergeSort, List.mem_filter]

theorem nodup_pageNames (h : fs.WellFormed) : (pageNames config fs directory loc).Nodup :=
  (List.mergeSort_perm _ _).nodup_iff.2 ((h.nodup_names loc).filter _)

/-- A file is a page if it has the extension. -/
theorem mem_pageNames_of_file (hfs : fs.WellFormed) (hdirectory : fs.LeadsTo directory loc)
    (hentry : fs.entryAt? (loc ++ [name]) = some (.file bytes)) :
    name ∈ pageNames config fs directory loc ↔
      Path.extensionOfName? name = some config.extension := by
  have hname : name ∈ fs.names loc := mem_names.2 (by simp [hentry])
  have hnot := hdirectory.not_isDirectory_join (hfs.isName hname).1 (hfs.isName hname).2 hentry
  simp [mem_pageNames, hname, isCandidate, hnot]

theorem candidates_eq (config : Config)
    (hlocate : fs.locate directory = .ok (.taken loc .directory)) :
    candidates config fs directory =
      .ok ((pageNames config fs directory loc).map (Path.join directory)) := by
  rw [candidates, hlocate]
  rfl

theorem run_eq (config : Config) (loader : Loader) (stamp : String) (startedAt : Timestamp)
    (hlocate : fs.locate directory = .ok (.taken loc .directory)) :
    run config loader stamp startedAt fs directory =
      .ok ((mendAll config loader stamp directory (pageNames config fs directory loc) { fs }).fs,
        (mendAll config loader stamp directory (pageNames config fs directory loc) { fs }).summary
          config startedAt directory (pageNames config fs directory loc).length) := by
  rw [run, candidates_eq config hlocate]
  simp only [bind, Except.bind, List.length_map]
  rfl

/-- A run that starts has found its directory. -/
theorem exists_locate_of_run {startedAt : Timestamp} {s : Summary}
    (hrun : run config loader stamp startedAt fs directory = .ok (fs', s)) :
    ∃ loc, fs.locate directory = .ok (.taken loc .directory) := by
  unfold run candidates at hrun
  split at hrun
  · rename_i loc hlocate
    exact ⟨loc, hlocate⟩
  · cases hrun

/-- A run has touched its pages only, and each page as its own name and bytes decide. -/
structure Isolated (loc : Location) (stamp : String) (names : List String)
    (bytesOf : String → ByteArray) (fs fs' : FileSystem) : Prop
    extends Mapped loc names bytesOf fs fs' where
  /-- No temporary file is left. -/
  temporary : ∀ name ∈ names, fs'.entryAt? (loc ++ [temporaryName stamp name]) = none
  /-- All directories list the same names. -/
  names : ∀ directory name, name ∈ fs'.names directory ↔ name ∈ fs.names directory

theorem Mapped.isolated {names : List String} {contents bytesOf : String → ByteArray}
    (h : Mapped loc names bytesOf fs fs')
    (hpages : ∀ name ∈ names, IsPage fs loc stamp name (contents name)) :
    Isolated loc stamp names bytesOf fs fs' where
  toMapped := h
  temporary name hname := by
    have hfresh := (hpages name hname).fresh
    rw [h.other, hfresh]
    intro other hother he
    rw [he, (hpages other hother).entryAt] at hfresh
    cases hfresh
  names directory name := by
    rw [mem_names, mem_names]
    by_cases hpage : ∃ other ∈ names, directory ++ [name] = loc ++ [other]
    · obtain ⟨other, hother, he⟩ := hpage
      simp [he, h.page other hother, (hpages other hother).entryAt]
    · rw [h.other _ fun other hother he => hpage ⟨other, hother, he⟩]

/-- A run maps the fate over the pages of its directory. -/
theorem run_isolated (config : Config) (loader : Loader) (startedAt : Timestamp)
    {contents : String → ByteArray} (hfs : fs.WellFormed)
    (hlocate : fs.locate directory = .ok (.taken loc .directory)) (hstamp : IsStamp stamp)
    (hfiles : ∀ name ∈ pageNames config fs directory loc,
      fs.entryAt? (loc ++ [name]) = some (.file (contents name)))
    (hfresh : ∀ name ∈ pageNames config fs directory loc,
      fs.entryAt? (loc ++ [temporaryName stamp name]) = none) :
    ∃ fs' summary, run config loader stamp startedAt fs directory = .ok (fs', summary) ∧
      Isolated loc stamp (pageNames config fs directory loc)
        (fun name => (fate config loader stamp directory name (contents name)).2) fs fs' ∧
      Tallied directory (pageNames config fs directory loc)
        (fun name => (fate config loader stamp directory name (contents name)).1) summary ∧
      ∀ name bytes, fs.entryAt? (loc ++ [name]) = some (.file bytes) →
        (name ∈ pageNames config fs directory loc ↔
          Path.extensionOfName? name = some config.extension) := by
  have hdirectory : fs.LeadsTo directory loc := .of_locate hlocate
  have hpages : ∀ name ∈ pageNames config fs directory loc,
      IsPage fs loc stamp name (contents name) := by
    intro name hname
    obtain ⟨hvalid, hfits⟩ := hfs.isName (mem_pageNames.1 hname).1
    exact ⟨hvalid, hfits, hfiles name hname, hfresh name hname⟩
  obtain ⟨fs', hloop, hmapped⟩ :=
    exists_mendAll config loader hstamp (nodup_pageNames hfs) { fs } hdirectory hpages
  have hrun := run_eq config loader stamp startedAt hlocate
  rw [hloop] at hrun
  refine ⟨fs', _, hrun, hmapped.isolated hpages, ?_, ?_⟩
  · exact (Tallied.nil fs).enterAll (pageNames config fs directory loc)
  · intro name bytes hentry
    exact mem_pageNames_of_file hfs hdirectory hentry

/-! ### A small directory -/

/-- A directory below the place where paths start is found there. -/
theorem locate_pages (hworking : fs.workingDirectory = [])
    (hpages : fs.entryAt? ["pages"] = some .directory) :
    fs.locate "pages" = .ok (.taken ["pages"] .directory) := by
  have hsteps : steps "pages" = ["pages"] := by decide
  have hpath : checkPath "pages" = .ok () := by decide
  have hlooked : IsLookedUp "pages" := isLookedUp (by decide) (by decide)
  have hstart : fs.start "pages" = [] := by rw [start, hworking, ite_self]
  rw [locate, hpath, hsteps, hstart]
  show fs.walk false maxLinks [] ["pages"] = _
  rw [walk_enter hlooked (by simp) hpages, walk]
  rfl

/-- The bytes of a page to mend, of one that is no text, and of a file that is no page. -/
def sampleContents (name : String) : ByteArray :=
  if name = "a.html" then "<title>A QML Type</title>".toUTF8
  else if name = "b.html" then ⟨#[255]⟩
  else ⟨#[]⟩

def sample : FileSystem where
  entries := (["pages"], .directory) ::
    ["a.html", "b.html", "notes"].map fun name => (["pages", name], .file (sampleContents name))
  workingDirectory := []

theorem wellFormed_sample : sample.WellFormed where
  nodup := by decide
  names := by
    have hnames : ∀ p ∈ sample.entries, ∀ name ∈ p.1,
        name ∈ ["pages", "a.html", "b.html", "notes"] := by decide
    have hvalid : ∀ name ∈ ["pages", "a.html", "b.html", "notes"], IsName name ∧ Fits name := by
      intro name hname
      simp only [List.mem_cons, List.not_mem_nil, or_false] at hname
      rcases hname with rfl | rfl | rfl | rfl <;>
        exact ⟨⟨by decide, by decide, by decide, by decide, by decide⟩, by decide⟩
    exact fun p hp name hname => hvalid name (hnames p hp name hname)

theorem locate_sample : sample.locate "pages" = .ok (.taken ["pages"] .directory) :=
  locate_pages rfl rfl

/-- The run over the small directory. -/
theorem run_isolated_sample :
    ∃ fs' summary, run {} .standard "0" (.ofUnixTime 0 0) sample "pages" = .ok (fs', summary) ∧
      Isolated ["pages"] "0" (pageNames {} sample "pages" ["pages"])
        (fun name => (fate {} .standard "0" "pages" name (sampleContents name)).2) sample fs' ∧
      Tallied "pages" (pageNames {} sample "pages" ["pages"])
        (fun name => (fate {} .standard "0" "pages" name (sampleContents name)).1) summary ∧
      ∀ name bytes, sample.entryAt? (["pages"] ++ [name]) = some (.file bytes) →
        (name ∈ pageNames {} sample "pages" ["pages"] ↔
          Path.extensionOfName? name = some "html") := by
  have hentries : ∀ name ∈ sample.names ["pages"],
      sample.entryAt? (["pages"] ++ [name]) = some (.file (sampleContents name)) ∧
        sample.entryAt? (["pages"] ++ [temporaryName "0" name]) = none := by decide +kernel
  have hstamp : IsStamp "0" := ⟨by decide, by decide⟩
  exact run_isolated {} .standard (.ofUnixTime 0 0) wellFormed_sample locate_sample hstamp
    (fun name hname => (hentries name (mem_pageNames.1 hname).1).1)
    (fun name hname => (hentries name (mem_pageNames.1 hname).1).2)

end Batch

end PageMend
