import PageMend.Proofs.Batch.Isolation

/-!
# The accounts of a run

A run keeps several counters, a ledger and a list of failures, and derives the table of the rules
from the ledger. All of them tell the same outcomes, one of each page (`outcomeOf`): `Accounted`
lists how they agree.

That the loop enters one outcome of each page is `mendAll_eq`, and holds in any directory, whatever
its files are; what an outcome can be is `possible_mendFile`. The rest is a matter of what was
entered: the ledger has recorded the marks of all outcomes (`ledger_enterAll`), and the counts and
the list were kept side by side (`Tallied.enterAll`).
-/

namespace PageMend

open Storage FileSystem

namespace FailureCounts

/-- The number of all failures is the sum over the categories. -/
theorem total_eq (counts : FailureCounts) :
    counts.total = Category.all.foldr (fun c n => counts.count c + n) 0 := by
  rw [total, toList]
  induction Category.all with
  | nil => rfl
  | cons c cs ih =>
    rw [List.filterMap_cons, List.foldr_cons, ← ih, count]
    cases counts.get? c with
    | none => exact (Nat.zero_add _).symm
    | some n => rfl

theorem get?_record_ne {counts : FailureCounts} (h : ∀ c, counts.get? c ≠ some 0)
    (category c : Category) : (counts.record category).get? c ≠ some 0 := by
  rw [record, get?_set]
  split
  · simp
  · exact h c

end FailureCounts

/-- Each failure is of one category. -/
theorem foldr_countP_category (failures : List Failure) :
    Category.all.foldr
        (fun c n => (failures.countP fun failure => failure.category = c) + n) 0 =
      failures.length := by
  induction failures with
  | nil => rfl
  | cons failure failures ih =>
    simp only [Category.all, List.foldr_cons, List.foldr_nil, List.countP_cons,
      List.length_cons] at ih ⊢
    cases failure.category <;> simp <;> omega

theorem LoadError.category_ne_write (error : LoadError) : error.category ≠ .write := by
  cases error <;> exact nofun

namespace Batch

variable {config : Config} {loader : Loader} {stamp directory name : String} {fs : FileSystem}

/-! ### What becomes of a file -/

/-- What an outcome can be: if the file is mended, at least one rule fired, and only active rules,
each once; in a dry run nothing fails to be written. -/
structure Outcome.Possible (config : Config) (outcome : Outcome) : Prop where
  mended : ∀ {fired}, outcome = .mended fired →
    fired ≠ [] ∧ fired.Sublist (activeRules config.pipeline)
  failed : config.dryRun = true → ∀ {category message}, outcome = .failed category message →
    category ≠ .write

theorem possible_untouched : Outcome.untouched.Possible config where
  mended he := nomatch he
  failed _ _ _ he := nomatch he

theorem possible_mended {fired : List Rule} (hne : fired ≠ [])
    (h : fired.Sublist (activeRules config.pipeline)) : (Outcome.mended fired).Possible config where
  mended he := Outcome.mended.inj he ▸ ⟨hne, h⟩
  failed _ _ _ he := nomatch he

theorem possible_failed {category : Category} (message : String)
    (h : config.dryRun = true → category ≠ .write) :
    (Outcome.failed category message).Possible config where
  mended he := nomatch he
  failed hdry _ _ he := (Outcome.failed.inj he).1 ▸ h hdry

theorem possible_mendFile (config : Config) (loader : Loader) (stamp : String) (fs : FileSystem)
    (path : String) : (mendFile config loader stamp fs path).2.Possible config := by
  rw [mendFile]
  split
  · rename_i error _
    exact possible_failed _ fun _ => error.category_ne_write
  · rename_i page _
    have hsublist : (mend config page).2.Sublist (activeRules config.pipeline) :=
      sublist_applyRules config _ page
    by_cases hnil : (mend config page).2.isEmpty = true
    · simp only [if_pos hnil]
      exact possible_untouched
    · have hmended := possible_mended (mt List.isEmpty_iff.2 hnil) hsublist
      simp only [if_neg hnil]
      by_cases hdry : config.dryRun = true
      · simp only [if_pos hdry]
        exact hmended
      · simp only [if_neg hdry]
        split
        · exact hmended
        · exact possible_failed _ fun h => absurd h hdry

/-! ### What becomes of the files of a run -/

/-- The outcome of a page in a run over pages, each mended in the file system that the ones in front
of it have left. -/
def outcomeOf (config : Config) (loader : Loader) (stamp directory : String) :
    FileSystem → List String → String → Outcome
  | _, [], _ => .untouched
  | fs, first :: names, name =>
    let (fs, outcome) := mendFile config loader stamp fs (Path.join directory first)
    if name = first then outcome else outcomeOf config loader stamp directory fs names name

theorem possible_outcomeOf (names : List String) :
    (outcomeOf config loader stamp directory fs names name).Possible config := by
  induction names generalizing fs with
  | nil => exact possible_untouched
  | cons first names ih =>
    simp only [outcomeOf]
    split
    · exact possible_mendFile ..
    · exact ih

theorem enterAll_congr {f g : String → Outcome} {names : List String}
    (h : ∀ name ∈ names, f name = g name) (p : Progress) :
    enterAll directory f names p = enterAll directory g names p := by
  induction names generalizing p with
  | nil => rfl
  | cons name names ih =>
    obtain ⟨hname, hnames⟩ := List.forall_mem_cons.1 h
    show enterAll directory f names (p.enter (Path.join directory name) (f name)) = _
    rw [hname, ih hnames]
    rfl

/-- The loop enters one outcome of each page. -/
theorem mendAll_eq (config : Config) (loader : Loader) (stamp directory : String)
    {names : List String} (hnodup : names.Nodup) (p : Progress) :
    ∃ fs', mendAll config loader stamp directory names p =
      { enterAll directory (outcomeOf config loader stamp directory p.fs names) names p
        with fs := fs' } := by
  induction names generalizing p with
  | nil => exact ⟨p.fs, rfl⟩
  | cons name names ih =>
    obtain ⟨hname, hnodup⟩ := List.nodup_cons.1 hnodup
    let outcome := (mendFile config loader stamp p.fs (Path.join directory name)).2
    let fs₁ := (mendFile config loader stamp p.fs (Path.join directory name)).1
    have hmend : mendFile config loader stamp p.fs (Path.join directory name) = (fs₁, outcome) :=
      rfl
    have hfirst : outcomeOf config loader stamp directory p.fs (name :: names) name = outcome :=
      if_pos rfl
    have hrest : ∀ other ∈ names,
        outcomeOf config loader stamp directory p.fs (name :: names) other =
          outcomeOf config loader stamp directory fs₁ names other := by
      intro other hother
      have hne : other ≠ name := fun he => hname (he ▸ hother)
      exact if_neg hne
    have hall : enterAll directory (outcomeOf config loader stamp directory p.fs (name :: names))
        (name :: names) p =
          enterAll directory (outcomeOf config loader stamp directory fs₁ names) names
            (p.enter (Path.join directory name) outcome) := by
      rw [enterAll, List.foldl_cons, hfirst]
      exact enterAll_congr hrest _
    obtain ⟨fs', hloop⟩ :=
      ih hnodup { p.enter (Path.join directory name) outcome with fs := fs₁ }
    refine ⟨fs', ?_⟩
    rw [mendAll_cons hmend, hloop, enterAll_with_fs, hall]

/-! ### What was entered -/

section
variable {names : List String} {outcomeOf : String → Outcome}

theorem ledger_enter (p : Progress) (path : String) (outcome : Outcome) :
    (p.enter path outcome).ledger = p.ledger.recordAll outcome.marks := by
  cases outcome with
  | mended fired => exact List.foldl_map.symm
  | _ => rfl

/-- The ledger has recorded the marks of all outcomes. -/
theorem ledger_enterAll (names : List String) (p : Progress) :
    (enterAll directory outcomeOf names p).ledger =
      p.ledger.recordAll (names.flatMap fun name => (outcomeOf name).marks) := by
  induction names generalizing p with
  | nil => rfl
  | cons name names ih =>
    show (enterAll directory outcomeOf names _).ledger = _
    rw [ih, ledger_enter, List.flatMap_cons, Ledger.recordAll_append]

/-- No category is counted zero times. -/
theorem get?_enterAll_ne {p : Progress} (h : ∀ c, p.failureCounts.get? c ≠ some 0)
    (names : List String) (c : Category) :
    (enterAll directory outcomeOf names p).failureCounts.get? c ≠ some 0 := by
  induction names generalizing p with
  | nil => exact h c
  | cons name names ih =>
    refine ih (p := p.enter _ (outcomeOf name)) ?_
    cases outcomeOf name with
    | failed category message => exact FailureCounts.get?_record_ne h category
    | _ => exact h

/-- Whether an outcome lists its page as a failure. -/
def Outcome.isFailed : Outcome → Bool
  | .failed _ _ => true
  | .untouched | .mended _ => false

/-- The failures have the paths of the pages that failed. -/
theorem map_path_failures (directory : String) (outcomeOf : String → Outcome)
    (names : List String) :
    (names.filterMap fun name => (outcomeOf name).failure? (Path.join directory name)).map
        Failure.path =
      (names.filter fun name => (outcomeOf name).isFailed).map (Path.join directory) := by
  induction names with
  | nil => rfl
  | cons name names ih =>
    rw [List.filterMap_cons, List.filter_cons]
    cases outcomeOf name with
    | failed category message => exact congrArg (_ :: ·) ih
    | _ => exact ih

/-- No page is both mended and failed. -/
theorem countP_isMended_add_countP_isFailed_le (outcomeOf : String → Outcome)
    (names : List String) :
    (names.countP fun name => (outcomeOf name).isMended) +
      (names.countP fun name => (outcomeOf name).isFailed) ≤ names.length := by
  induction names with
  | nil => exact Nat.le_refl _
  | cons name names ih =>
    have hone : ((if (outcomeOf name).isMended = true then 1 else 0) +
        if (outcomeOf name).isFailed = true then 1 else 0) ≤ 1 := by
      cases outcomeOf name <;> simp [Outcome.isMended, Outcome.isFailed]
    rw [List.countP_cons, List.countP_cons, List.length_cons]
    omega

theorem Outcome.isMended_of_mem_marks {outcome : Outcome} {rule : String}
    (h : rule ∈ outcome.marks) : outcome.isMended = true := by
  cases outcome with
  | mended fired => rfl
  | _ => cases h

theorem Outcome.Possible.nodup_marks {outcome : Outcome} (h : outcome.Possible config) :
    outcome.marks.Nodup := by
  cases outcome with
  | mended fired =>
    have hfired : fired.Nodup := (h.mended rfl).2.nodup (nodup_activeRules config.pipeline)
    exact hfired.map fun _ _ => Rule.name_injective
  | _ => exact List.nodup_nil

theorem Outcome.Possible.marks_subset {outcome : Outcome} (h : outcome.Possible config) :
    outcome.marks ⊆ (activeRules config.pipeline).map Rule.name := by
  cases outcome with
  | mended fired => exact List.map_subset _ (h.mended rfl).2.subset
  | _ => exact List.nil_subset _

theorem Outcome.Possible.marks_ne_nil {outcome : Outcome} (h : outcome.Possible config)
    (hmended : outcome.isMended = true) : outcome.marks ≠ [] := by
  cases outcome with
  | mended fired => exact mt List.map_eq_nil_iff.1 (h.mended rfl).1
  | _ => cases hmended

/-- Marks that are each made once count the pages that made them. -/
theorem count_flatMap_marks (h : ∀ name ∈ names, (outcomeOf name).Possible config)
    (rule : String) :
    (names.flatMap fun name => (outcomeOf name).marks).count rule =
      names.countP fun name => rule ∈ (outcomeOf name).marks := by
  induction names with
  | nil => rfl
  | cons name names ih =>
    obtain ⟨hname, hnames⟩ := List.forall_mem_cons.1 h
    rw [List.flatMap_cons, List.count_append, ih hnames, List.countP_cons]
    by_cases hmem : rule ∈ (outcomeOf name).marks
    · rw [hname.nodup_marks.count, if_pos hmem]
      simp [hmem, Nat.add_comm]
    · rw [List.count_eq_zero.2 hmem]
      simp [hmem]

/-- Each page that is mended makes a mark. -/
theorem countP_isMended_le (h : ∀ name ∈ names, (outcomeOf name).Possible config) :
    (names.countP fun name => (outcomeOf name).isMended) ≤
      (names.flatMap fun name => (outcomeOf name).marks).length := by
  induction names with
  | nil => exact Nat.le_refl _
  | cons name names ih =>
    obtain ⟨hname, hnames⟩ := List.forall_mem_cons.1 h
    have hle := ih hnames
    rw [List.flatMap_cons, List.length_append, List.countP_cons]
    split
    · rename_i hmended
      have hpos := List.length_pos_iff.2 (hname.marks_ne_nil hmended)
      omega
    · omega

end

/-! ### The accounts -/

/-- A summary whose counters, ledger, table and failures agree with each other and with the
outcomes, one of each page. -/
structure Accounted (config : Config) (directory : String) (names : List String)
    (outcomeOf : String → Outcome) (s : Summary) : Prop
    extends Tallied directory names outcomeOf s where
  within : s.filesModified + s.failures.length ≤ s.filesScanned
  totalFailures : s.totalFailures = s.failures.length
  noZero : ∀ category, s.failureCounts.get? category ≠ some 0
  /-- The failures are in the order of the pages. -/
  inOrder : (s.failures.map Failure.path).Sublist (names.map (Path.join directory))
  distinct : (s.failures.map Failure.path).Nodup
  /-- A rule is counted once for each page that was mended and on which it fired. -/
  fired : ∀ rule, s.ledger.count rule = names.countP fun name => rule ∈ (outcomeOf name).marks
  most : ∀ rule, s.ledger.count rule ≤ s.filesModified
  least : s.filesModified ≤ s.ledger.total
  /-- The table lists the active rules with a count, in the order of the pipeline. -/
  rules : s.rules.map Tally.rule =
    ((activeRules config.pipeline).map Rule.name).filter (0 < s.ledger.count ·)
  once : (s.rules.map Tally.rule).Nodup
  files : ∀ tally ∈ s.rules, tally.files = s.ledger.count tally.rule
  /-- No entry of the ledger is zero, and each stands in the table. -/
  entries : ∀ entry ∈ s.ledger.counts, 0 < entry.2 ∧
    ∃ tally ∈ s.rules, tally.rule = entry.1 ∧ tally.files = entry.2
  /-- A page that failed is not counted as mended, and made no mark. -/
  failed : ∀ name ∈ names, Path.join directory name ∈ s.failures.map Failure.path →
    (outcomeOf name).isMended = false ∧ (outcomeOf name).marks = []
  dryRun : config.dryRun = true → ∀ failure ∈ s.failures, failure.category ≠ .write

/-- The table lists the active rules with a count. -/
theorem map_rule_tallies (config : Config) (ledger : Ledger) :
    (tallies config ledger).map Tally.rule =
      ((activeRules config.pipeline).map Rule.name).filter (0 < ledger.count ·) := by
  rw [tallies]
  induction activeRules config.pipeline with
  | nil => rfl
  | cons r rs ih =>
    rw [List.filterMap_cons, List.map_cons, List.filter_cons]
    by_cases hpos : 0 < ledger.count r.name
    · simp [hpos, ih]
    · simp [hpos, ih]

theorem files_of_mem_tallies {ledger : Ledger} {tally : Tally} (h : tally ∈ tallies config ledger) :
    tally.files = ledger.count tally.rule := by
  obtain ⟨r, -, htally⟩ := List.mem_filterMap.1 h
  dsimp only at htally
  split at htally
  · obtain rfl := Option.some.inj htally
    rfl
  · cases htally

/-- The table has a row for each entry of an active rule. -/
theorem exists_mem_tallies {ledger : Ledger} {entry : String × Nat} (h : entry ∈ ledger.counts)
    (hpos : 0 < entry.2) (hactive : entry.1 ∈ (activeRules config.pipeline).map Rule.name) :
    ∃ tally ∈ tallies config ledger, tally.rule = entry.1 ∧ tally.files = entry.2 := by
  have hcount : ledger.count entry.1 = entry.2 := ledger.count_of_mem h
  have hlisted : entry.1 ∈ (tallies config ledger).map Tally.rule := by
    rw [map_rule_tallies, List.mem_filter]
    exact ⟨hactive, decide_eq_true (hcount ▸ hpos)⟩
  obtain ⟨tally, htally, hrule⟩ := List.mem_map.1 hlisted
  refine ⟨tally, htally, hrule, ?_⟩
  rw [files_of_mem_tallies htally, hrule, hcount]

section Failures

variable {names : List String} {outcomeOf : String → Outcome} {s : Summary}

theorem Outcome.unmarked_of_isFailed {outcome : Outcome} (h : outcome.isFailed = true) :
    outcome.isMended = false ∧ outcome.marks = [] := by
  cases outcome with
  | failed category message => exact ⟨rfl, rfl⟩
  | untouched => cases h
  | mended fired => cases h

theorem Tallied.map_path_failures (h : Tallied directory names outcomeOf s) :
    s.failures.map Failure.path =
      (names.filter fun name => (outcomeOf name).isFailed).map (Path.join directory) := by
  rw [h.failures, Batch.map_path_failures]

theorem Tallied.length_failures (h : Tallied directory names outcomeOf s) :
    s.failures.length = names.countP fun name => (outcomeOf name).isFailed := by
  rw [← List.length_map, h.map_path_failures, List.length_map, List.countP_eq_length_filter]

/-- The failures are in the order of the pages. -/
theorem Tallied.sublist_failures (h : Tallied directory names outcomeOf s) :
    (s.failures.map Failure.path).Sublist (names.map (Path.join directory)) := by
  rw [h.map_path_failures]
  exact List.filter_sublist.map _

/-- Of pages with distinct paths, the one whose path is listed has failed. -/
theorem Tallied.isFailed_of_mem (h : Tallied directory names outcomeOf s)
    (hnodup : (names.map (Path.join directory)).Nodup) {name : String} (hname : name ∈ names)
    (hpath : Path.join directory name ∈ s.failures.map Failure.path) :
    (outcomeOf name).isFailed = true := by
  rw [h.map_path_failures] at hpath
  obtain ⟨other, hother, hsame⟩ := List.mem_map.1 hpath
  obtain ⟨hmem, hfailed⟩ := List.mem_filter.1 hother
  obtain rfl := List.inj_on_of_nodup_map hnodup hmem hname hsame
  exact hfailed

/-- Each failure that is listed is the outcome of a page. -/
theorem Tallied.exists_of_mem (h : Tallied directory names outcomeOf s) {failure : Failure}
    (hfailure : failure ∈ s.failures) :
    ∃ name ∈ names, outcomeOf name = .failed failure.category failure.message := by
  rw [h.failures] at hfailure
  obtain ⟨name, hname, hfailure⟩ := List.mem_filterMap.1 hfailure
  refine ⟨name, hname, ?_⟩
  cases ho : outcomeOf name with
  | failed category message =>
    rw [ho] at hfailure
    obtain rfl := Option.some.inj hfailure
    rfl
  | untouched => rw [ho] at hfailure; cases hfailure
  | mended fired => rw [ho] at hfailure; cases hfailure

end Failures

/-- The outcomes of distinct pages, entered one behind the other, are in the accounts. -/
theorem accounted_enterAll {startedAt : Timestamp} {names : List String}
    {outcomeOf : String → Outcome} (hpossible : ∀ name ∈ names, (outcomeOf name).Possible config)
    (hnodup : (names.map (Path.join directory)).Nodup) (fs : FileSystem) :
    Accounted config directory names outcomeOf
      ((enterAll directory outcomeOf names { fs }).summary config startedAt directory
        names.length) := by
  generalize hs : (enterAll directory outcomeOf names { fs }).summary config startedAt directory
    names.length = s
  have htallied : Tallied directory names outcomeOf s := hs ▸ (Tallied.nil fs).enterAll names
  have hledger : s.ledger =
      Ledger.empty.recordAll (names.flatMap fun name => (outcomeOf name).marks) := by
    subst hs
    exact ledger_enterAll names { fs }
  have hrules : s.rules = tallies config s.ledger := hs ▸ rfl
  have hfired : ∀ rule, s.ledger.count rule =
      names.countP fun name => rule ∈ (outcomeOf name).marks := fun rule =>
    (htallied.ledger rule).trans (count_flatMap_marks hpossible rule)
  have htable := map_rule_tallies config s.ledger
  rw [← hrules] at htable
  refine
    { htallied with
      within := ?within
      totalFailures := ?totalFailures
      noZero := ?noZero
      inOrder := htallied.sublist_failures
      distinct := htallied.sublist_failures.nodup hnodup
      fired := hfired
      most := ?most
      least := ?least
      rules := htable
      once := ?once
      files := ?files
      entries := ?entries
      failed := ?failed
      dryRun := ?dryRun }
  case within =>
    rw [htallied.filesModified, htallied.filesScanned, htallied.length_failures]
    exact countP_isMended_add_countP_isFailed_le outcomeOf names
  case totalFailures =>
    rw [Summary.totalFailures, FailureCounts.total_eq, ← foldr_countP_category]
    simp only [htallied.failureCounts]
  case noZero =>
    subst hs
    exact get?_enterAll_ne (fun c => by cases c <;> exact nofun) names
  case most =>
    intro rule
    rw [hfired, htallied.filesModified]
    refine List.countP_mono_left fun name _ hmem => ?_
    exact Outcome.isMended_of_mem_marks (of_decide_eq_true hmem)
  case least =>
    rw [htallied.filesModified, hledger, Ledger.total_recordAll]
    exact Nat.le_trans (countP_isMended_le hpossible) (Nat.le_add_left _ _)
  case once =>
    rw [htable]
    exact ((nodup_activeRules config.pipeline).map fun _ _ => Rule.name_injective).filter _
  case files =>
    intro tally htally
    rw [hrules] at htally
    exact files_of_mem_tallies htally
  case entries =>
    intro entry hentry
    have hpos : 0 < entry.2 := by
      rw [hledger] at hentry
      exact Ledger.empty.pos_recordAll (List.forall_mem_nil _) _ entry hentry
    -- a page has made the mark, so the rule is active
    have hactive : entry.1 ∈ (activeRules config.pipeline).map Rule.name := by
      have hcount : 0 < s.ledger.count entry.1 := by rwa [s.ledger.count_of_mem hentry]
      rw [hfired, List.countP_pos_iff] at hcount
      obtain ⟨name, hname, hmark⟩ := hcount
      exact (hpossible name hname).marks_subset (of_decide_eq_true hmark)
    rw [hrules]
    exact ⟨hpos, exists_mem_tallies hentry hpos hactive⟩
  case failed =>
    intro name hname hpath
    exact Outcome.unmarked_of_isFailed (htallied.isFailed_of_mem hnodup hname hpath)
  case dryRun =>
    intro hdry failure hfailure
    obtain ⟨name, hname, ho⟩ := htallied.exists_of_mem hfailure
    exact (hpossible name hname).failed hdry ho

/-! ### A whole run -/

/-- The pages of a directory have distinct paths. -/
theorem nodup_map_join {loc : Location} (hfs : fs.WellFormed)
    (hlocate : fs.locate directory = .ok (.taken loc .directory)) :
    ((pageNames config fs directory loc).map (Path.join directory)).Nodup := by
  have hne : directory ≠ "" := (LeadsTo.of_locate hlocate).ne_empty
  have hname : ∀ name ∈ pageNames config fs directory loc,
      Path.fileName? (Path.join directory name) = some name := fun name hname =>
    Path.fileName?_join hne (hfs.isName (mem_pageNames.1 hname).1).1
  refine (nodup_pageNames hfs).map_on fun name hmem other hother hsame => ?_
  have hother := hname other hother
  rw [← hsame, hname name hmem] at hother
  exact Option.some.inj hother

/-- The summary of a run is in the accounts: its counters, its ledger, its table of rules and its
list of failures tell one outcome of each page of the directory. -/
theorem run_accounted (config : Config) (loader : Loader) (stamp : String) (startedAt : Timestamp)
    {fs' : FileSystem} {s : Summary} (hfs : fs.WellFormed)
    (hrun : run config loader stamp startedAt fs directory = .ok (fs', s)) :
    ∃ names, candidates config fs directory = .ok (names.map (Path.join directory)) ∧
      Accounted config directory names (outcomeOf config loader stamp directory fs names) s := by
  obtain ⟨loc, hlocate⟩ := exists_locate_of_run hrun
  refine ⟨pageNames config fs directory loc, candidates_eq config hlocate, ?_⟩
  have hnodup : (pageNames config fs directory loc).Nodup := nodup_pageNames hfs
  obtain ⟨after, hloop⟩ := mendAll_eq config loader stamp directory hnodup { fs }
  rw [run_eq config loader stamp startedAt hlocate, hloop] at hrun
  obtain ⟨-, rfl⟩ := Prod.mk.inj (Except.ok.inj hrun)
  exact accounted_enterAll (fun name _ => possible_outcomeOf _) (nodup_map_join hfs hlocate) fs

/-! ### The small directory -/

theorem pageNames_sample : pageNames {} sample "pages" ["pages"] = ["a.html", "b.html"] := by
  have hentry : ∀ name ∈ sample.names ["pages"],
      sample.entryAt? (["pages"] ++ [name]) = some (.file (sampleContents name)) := by
    decide
  have hcandidate : ∀ name ∈ sample.names ["pages"], isCandidate {} sample "pages" name =
      decide (Path.extensionOfName? name = some "html") := by
    intro name hname
    obtain ⟨hvalid, hfits⟩ := wellFormed_sample.isName hname
    rw [isCandidate, (LeadsTo.of_locate locate_sample).not_isDirectory_join hvalid hfits
      (hentry name hname)]
    rfl
  have hfilter : ((sample.names ["pages"]).filter fun name =>
      decide (Path.extensionOfName? name = some "html")) = ["a.html", "b.html"] := by decide
  rw [pageNames, List.filter_congr hcandidate, hfilter]
  exact List.mergeSort_of_pairwise (by decide)

/-- Of the two pages of the small directory, one is mended and one is no text. -/
theorem run_accounted_sample :
    ∃ fs' s, run {} .standard "0" (.ofUnixTime 0 0) sample "pages" = .ok (fs', s) ∧
      (∃ names, candidates {} sample "pages" = .ok (names.map (Path.join "pages")) ∧
        Accounted {} "pages" names (outcomeOf {} .standard "0" "pages" sample names) s) ∧
      s.filesScanned = 2 ∧ s.filesModified = 1 ∧
      s.failures.map Failure.path = ["pages/b.html"] ∧
      s.ledger.counts = [("TitleSuffixStrip", 1)] := by
  have hpages : ∀ name ∈ ["a.html", "b.html"],
      IsPage sample ["pages"] "0" name (sampleContents name) := by
    intro name hname
    have hlisted : ∀ name ∈ ["a.html", "b.html"], name ∈ sample.names ["pages"] ∧
        sample.entryAt? (["pages"] ++ [name]) = some (.file (sampleContents name)) ∧
        sample.entryAt? (["pages"] ++ [temporaryName "0" name]) = none := by decide +kernel
    obtain ⟨hmem, hentry, hfresh⟩ := hlisted name hname
    obtain ⟨hvalid, hfits⟩ := wellFormed_sample.isName hmem
    exact ⟨hvalid, hfits, hentry, hfresh⟩
  obtain ⟨fs', hloop, -⟩ := exists_mendAll {} .standard ⟨by decide, by decide⟩ (by decide)
    { fs := sample } (.of_locate locate_sample) hpages
  have hrun := run_eq {} .standard "0" (.ofUnixTime 0 0) locate_sample
  rw [pageNames_sample, hloop] at hrun
  have haccounts := run_accounted {} .standard "0" (.ofUnixTime 0 0) wellFormed_sample hrun
  have hvalues :
      let entered := enterAll "pages"
        (fun name => (fate {} .standard "0" "pages" name (sampleContents name)).1)
        ["a.html", "b.html"] { fs := sample }
      entered.filesModified = 1 ∧ entered.failures.map Failure.path = ["pages/b.html"] ∧
        entered.ledger.counts = [("TitleSuffixStrip", 1)] := by decide +kernel
  exact ⟨_, _, hrun, haccounts, rfl, hvalues⟩

end Batch

end PageMend
