import PageMend.Proofs.Batch.Accounting
import PageMend.Proofs.Page.Replace

/-!
# What a dry run foretells

A dry run changes nothing. What it says of a page is `foreseen`, which depends on what is read at
the path of the page. A run that writes does to each page what is foreseen where that page is
reached, or fails to write it (`mendFile_cases`).

So the two runs say the same if each page reads the same in both. A page that was saved is seen
again only by paths that lead through its entry, that is by links to it. Where no page is such a
link to an earlier one that is mended, and nothing fails to be written, the dry run foretells the
run (`dryRun_foretells`); a link to an earlier page is counted by the dry run only.
-/

namespace PageMend

open Storage FileSystem

/-- The same configuration for a dry run. -/
def Config.dry (config : Config) : Config := { config with dryRun := true }

theorem apply_dry (config : Config) (page : Page) (r : Rule) :
    r.apply config.dry page = r.apply config page := by
  cases r <;> rfl

theorem applyRules_dry (config : Config) (rules : List Rule) (page : Page) :
    applyRules config.dry rules page = applyRules config rules page := by
  induction rules generalizing page with
  | nil => rfl
  | cons r rs ih => simp only [applyRules, apply_dry, ih]

theorem mend_dry (config : Config) (page : Page) : mend config.dry page = mend config page := by
  have hpipeline : config.dry.pipeline = config.pipeline := rfl
  simp only [mend, hpipeline, applyRules_dry]

/-- A page is what its path and its bytes make it. -/
theorem load_eq (loader : Loader) (fs : FileSystem) (path : String) :
    loader.load fs path = ((fs.read path).mapError LoadError.io).bind (loader.pageOf path) := rfl

namespace Batch

variable {config : Config} {loader : Loader} {stamp directory name path : String}
  {fs fs₀ fs' : FileSystem} {loc : Location} {names : List String}

/-! ### One page -/

/-- What becomes of a page that is read like this, if it can be written. -/
def foreseen (config : Config) (loader : Loader) (path : String) :
    Except OsError ByteArray → Outcome
  | .error error => .failed .io ("Failed to parse: " ++ (LoadError.io error).message)
  | .ok bytes =>
    match loader.pageOf path bytes with
    | .error error => .failed error.category ("Failed to parse: " ++ error.message)
    | .ok page =>
      if (mend config page).2.isEmpty then .untouched else .mended (mend config page).2

/-- Where no page is to be saved, mending does what is foreseen. -/
theorem mendFile_of_kept (h : config.dryRun = true ∨
    (foreseen config loader path (fs.read path)).isMended = false) :
    mendFile config loader stamp fs path = (fs, foreseen config loader path (fs.read path)) := by
  rw [mendFile, load_eq]
  cases hread : fs.read path with
  | error error => rfl
  | ok bytes =>
    simp only [Except.mapError, Except.bind, foreseen]
    cases hpage : loader.pageOf path bytes with
    | error error => rfl
    | ok page =>
      by_cases hfired : (mend config page).2.isEmpty = true
      · simp only [if_pos hfired]
      · have hdry : config.dryRun = true := by
          refine h.resolve_right fun hkept => ?_
          simp only [hread, foreseen, hpage, if_neg hfired] at hkept
          cases hkept
        simp only [if_neg hfired, hdry, if_true]

/-- A page that is to be mended can be loaded, and rules fire on it. -/
theorem exists_load_of_isMended
    (h : (foreseen config loader path (fs.read path)).isMended = true) :
    ∃ page, loader.load fs path = .ok page ∧ (mend config page).1.path = path ∧
      ¬(mend config page).2.isEmpty = true ∧
      foreseen config loader path (fs.read path) = .mended (mend config page).2 := by
  rw [load_eq]
  cases hread : fs.read path with
  | error error =>
    rw [hread] at h
    cases h
  | ok bytes =>
    simp only [hread, foreseen] at h
    simp only [Except.mapError, Except.bind, foreseen]
    cases hpage : loader.pageOf path bytes with
    | error error =>
      rw [hpage] at h
      cases h
    | ok page =>
      by_cases hfired : (mend config page).2.isEmpty = true
      · simp only [hpage, if_pos hfired] at h
        cases h
      · exact ⟨page, rfl, (path_mend config page).trans (path_of_pageOf hpage), hfired,
          if_neg hfired⟩

theorem foreseen_dry (config : Config) (loader : Loader) (path : String)
    (read : Except OsError ByteArray) :
    foreseen config.dry loader path read = foreseen config loader path read := by
  cases read with
  | error error => rfl
  | ok bytes => simp only [foreseen, mend_dry]

/-- Mending a page does what is foreseen, unless it fails to be written: then either nothing has
changed, or the page was saved in the entry which its path names. -/
theorem mendFile_cases (config : Config) (loader : Loader) (hstamp : IsStamp stamp)
    (hunused : Unused fs (temporaryNameOf stamp path)) :
    mendFile config loader stamp fs path = (fs, foreseen config loader path (fs.read path)) ∨
      (∃ message, mendFile config loader stamp fs path = (fs, .failed .write message)) ∨
      ∃ directory name bytes, fs.NamedIn path directory name ∧
        (foreseen config loader path (fs.read path)).isMended = true ∧
        mendFile config loader stamp fs path =
          (fs.put (directory ++ [name]) (.file bytes),
            foreseen config loader path (fs.read path)) := by
  by_cases hkept : config.dryRun = true ∨
      (foreseen config loader path (fs.read path)).isMended = false
  · exact .inl (mendFile_of_kept hkept)
  · obtain ⟨hwrites, hmended⟩ := not_or.1 hkept
    rw [Bool.not_eq_false] at hmended
    obtain ⟨page, hload, hpath, hfired, hforeseen⟩ := exists_load_of_isMended hmended
    simp only [mendFile, hload, if_neg hfired, if_neg hwrites, hforeseen]
    rcases rewrite_cases hstamp (modified_mend hfired) (hpath.symm ▸ hunused) with
      ⟨error, hrewrite⟩ | ⟨directory, name, hnamed, -, -, -, hrewrite⟩
    · simp only [hrewrite]
      exact .inr (.inl ⟨error.message, rfl⟩)
    · rw [hpath] at hnamed
      simp only [hrewrite]
      exact .inr (.inr ⟨directory, name, _, hnamed, rfl, rfl⟩)

/-- A page that can be saved becomes what is foreseen, be it a file or a link. -/
theorem exists_mendFile_put (h : fs.LeadsTo directory loc) (hname : IsName name)
    (hfits : Fits name) (hshort : (Path.join directory name).utf8ByteSize < maxPathLength)
    (hkept : fs.entryAt? (loc ++ [name]) ≠ some .directory) (hstamp : IsStamp stamp)
    (hfree : fs.entryAt? (loc ++ [temporaryName stamp name]) = none)
    (hfault : saveFault? stamp directory name = none) (hwrites : config.dryRun = false)
    (hmended : (foreseen config loader (Path.join directory name)
      (fs.read (Path.join directory name))).isMended = true) :
    ∃ page, loader.load fs (Path.join directory name) = .ok page ∧
      mendFile config loader stamp fs (Path.join directory name) =
        (fs.put (loc ++ [name]) (.file (mend config page).1.serialize.toUTF8),
          foreseen config loader (Path.join directory name)
            (fs.read (Path.join directory name))) := by
  obtain ⟨page, hload, hpath, hfired, hforeseen⟩ := exists_load_of_isMended hmended
  refine ⟨page, hload, ?_⟩
  have hrewrite := rewrite_join h hname hstamp hpath (modified_mend hfired) hfree hfits hshort hkept
    hfault
  simp only [mendFile, hload, hforeseen, if_neg hfired, hwrites, Bool.false_eq_true, if_false,
    hrewrite]

/-! ### The loop of a dry run -/

theorem outcomeOf_of_dryRun (hdry : config.dryRun = true) (hname : name ∈ names) :
    outcomeOf config loader stamp directory fs names name =
      foreseen config loader (Path.join directory name) (fs.read (Path.join directory name)) := by
  induction names with
  | nil => cases hname
  | cons first names ih =>
    simp only [outcomeOf, mendFile_of_kept (.inl hdry)]
    by_cases hfirst : name = first
    · rw [if_pos hfirst, hfirst]
    · rw [if_neg hfirst]
      exact ih ((List.mem_cons.1 hname).resolve_left hfirst)

theorem fs_enter (p : Progress) (path : String) (outcome : Outcome) :
    (p.enter path outcome).fs = p.fs := by
  cases outcome <;> rfl

theorem fs_mendAll_of_dryRun (hdry : config.dryRun = true) (names : List String) (p : Progress) :
    (mendAll config loader stamp directory names p).fs = p.fs := by
  induction names generalizing p with
  | nil => rfl
  | cons name names ih =>
    have hstep : (p.step config loader stamp (Path.join directory name)).fs = p.fs := by
      rw [Progress.step, mendFile_of_kept (.inl hdry)]
      exact fs_enter p _ _
    rw [← hstep]
    exact ih _

/-- A dry run changes nothing. -/
theorem fs_run_of_dryRun {startedAt : Timestamp} {s : Summary} (hdry : config.dryRun = true)
    (hrun : run config loader stamp startedAt fs directory = .ok (fs', s)) : fs' = fs := by
  obtain ⟨loc, hlocate⟩ := exists_locate_of_run hrun
  rw [run_eq config loader stamp startedAt hlocate] at hrun
  obtain ⟨rfl, -⟩ := Prod.mk.inj (Except.ok.inj hrun)
  exact fs_mendAll_of_dryRun hdry _ _

/-! ### The loop of a run that writes -/

/-- The pages that are left read what they read at the start, and can be written. -/
structure Shadows (stamp directory : String) (names : List String) (fs₀ fs : FileSystem) :
    Prop where
  agree : ∀ name ∈ names, Agree fs₀ fs (Path.join directory name)
  unused : ∀ name ∈ names, Unused fs (temporaryName stamp name)

theorem Shadows.tail (h : Shadows stamp directory (name :: names) fs₀ fs) :
    Shadows stamp directory names fs₀ fs where
  agree other hother := h.agree other (List.mem_cons_of_mem name hother)
  unused other hother := h.unused other (List.mem_cons_of_mem name hother)

/-- No path of the pages leads through the entry that is replaced. -/
theorem Shadows.put {e : Entry} (h : Shadows stamp directory names fs₀ fs)
    (hapart : ∀ other ∈ names, loc ++ [name] ∉ fs₀.trailOf (Path.join directory other))
    (hne : ∀ other ∈ names, name ≠ temporaryName stamp other) :
    Shadows stamp directory names fs₀ (fs.put (loc ++ [name]) e) where
  agree other hother :=
    { workingDirectory := (h.agree other hother).workingDirectory
      entryAt := by
        intro l hl
        rw [entryAt?_put (by simp), if_neg, (h.agree other hother).entryAt l hl]
        rintro rfl
        exact hapart other hother hl }
  unused other hother parent := by
    rw [entryAt?_put (by simp), if_neg, h.unused other hother]
    intro he
    obtain ⟨-, hname⟩ := List.append_inj' he rfl
    exact hne other hother (List.cons.inj hname).1.symm

/-- A name behind a directory is named in it, if at all. -/
theorem eq_of_namedIn_join {other : String} {place : Location} (h : fs.LeadsTo directory loc)
    (hname : IsName name) (hnamed : fs.NamedIn (Path.join directory name) place other) :
    place = loc ∧ other = name := by
  have hplace := hnamed.locateParent
  rw [h.locateParent_join hname] at hplace
  split at hplace
  · cases hplace
  · obtain ⟨rfl, hother⟩ := Prod.mk.inj (Except.ok.inj hplace)
    exact ⟨rfl, (Option.some.inj hother).symm⟩

theorem temporaryNameOf_join (hne : directory ≠ "") (hname : IsName name) :
    temporaryNameOf stamp (Path.join directory name) = temporaryName stamp name := by
  rw [temporaryNameOf, Path.fileName?_join hne hname, Option.getD_some]

/-- No page leads through an earlier one that is to be mended. -/
def Apart (config : Config) (loader : Loader) (fs : FileSystem) (directory : String)
    (loc : Location) (names : List String) : Prop :=
  names.Pairwise fun name other =>
    (foreseen config loader (Path.join directory name)
      (fs.read (Path.join directory name))).isMended = true →
      loc ++ [name] ∉ fs.trailOf (Path.join directory other)

/-- A page that is mended, and does not fail to be written, becomes what is foreseen at the start,
and the pages behind it still read what they read at the start. -/
theorem exists_mendFile_shadows {first : String} (hstamp : IsStamp stamp)
    (hdirectory : fs₀.LeadsTo directory loc) (hfirst : IsName first)
    (hne : ∀ other ∈ names, first ≠ temporaryName stamp other)
    (hclear : ∀ other ∈ names, (foreseen config loader (Path.join directory first)
      (fs₀.read (Path.join directory first))).isMended = true →
      loc ++ [first] ∉ fs₀.trailOf (Path.join directory other))
    (hshadows : Shadows stamp directory (first :: names) fs₀ fs)
    (hwritten : ∀ message,
      (mendFile config loader stamp fs (Path.join directory first)).2 ≠ .failed .write message) :
    ∃ after, mendFile config loader stamp fs (Path.join directory first) =
        (after, foreseen config loader (Path.join directory first)
          (fs₀.read (Path.join directory first))) ∧
      Shadows stamp directory names fs₀ after := by
  have hagree := hshadows.agree first List.mem_cons_self
  have hunused : Unused fs (temporaryNameOf stamp (Path.join directory first)) := by
    rw [temporaryNameOf_join hdirectory.ne_empty hfirst]
    exact hshadows.unused first List.mem_cons_self
  have hread := hagree.read
  rw [← hread] at hclear ⊢
  rcases mendFile_cases config loader hstamp hunused with
    hmend | ⟨message, hmend⟩ | ⟨place, other, bytes, hnamed, hmended, hmend⟩
  · exact ⟨fs, hmend, hshadows.tail⟩
  · exact absurd (congrArg Prod.snd hmend) (hwritten message)
  · obtain ⟨rfl, rfl⟩ := eq_of_namedIn_join (hdirectory.of_agree hfirst hagree) hfirst hnamed
    exact ⟨_, hmend, hshadows.tail.put (fun other hother => hclear other hother hmended) hne⟩

/-- Where no page leads through an earlier one that is to be mended and nothing fails to be
written, each page becomes what is foreseen at the start. -/
theorem outcomeOf_eq_foreseen (hstamp : IsStamp stamp) (hdirectory : fs₀.LeadsTo directory loc)
    (hnodup : names.Nodup) (hnames : ∀ name ∈ names, IsName name)
    (hne : ∀ name ∈ names, ∀ other ∈ names, name ≠ temporaryName stamp other)
    (hapart : Apart config loader fs₀ directory loc names)
    (hshadows : Shadows stamp directory names fs₀ fs)
    (hwritten : ∀ name ∈ names, ∀ message,
      outcomeOf config loader stamp directory fs names name ≠ .failed .write message)
    (hname : name ∈ names) :
    outcomeOf config loader stamp directory fs names name =
      foreseen config loader (Path.join directory name)
        (fs₀.read (Path.join directory name)) := by
  induction names generalizing fs with
  | nil => cases hname
  | cons first names ih =>
    obtain ⟨hfirst, hnames⟩ := List.forall_mem_cons.1 hnames
    obtain ⟨hout, hnodup⟩ := List.nodup_cons.1 hnodup
    obtain ⟨hclear, hapart⟩ := List.pairwise_cons.1 hapart
    obtain ⟨hdone, hwritten⟩ := List.forall_mem_cons.1 hwritten
    simp only [outcomeOf, if_true] at hdone
    have htail : ∀ other ∈ names, other ∈ first :: names := fun _ => List.mem_cons_of_mem first
    obtain ⟨after, hmend, hafter⟩ := exists_mendFile_shadows hstamp hdirectory hfirst
      (fun other hother => hne first List.mem_cons_self other (htail other hother)) hclear hshadows
      hdone
    have hrest : ∀ other, other ≠ first →
        outcomeOf config loader stamp directory fs (first :: names) other =
          outcomeOf config loader stamp directory after names other := by
      intro other hother
      simp only [outcomeOf, hmend, if_neg hother]
    by_cases he : name = first
    · subst he
      simp only [outcomeOf, hmend, if_true]
    · rw [hrest name he]
      refine ih hnodup hnames (fun other hother another hanother =>
        hne other (htail other hother) another (htail another hanother)) hapart hafter ?_
        ((List.mem_cons.1 hname).resolve_left he)
      intro other hother message
      have hother' : other ≠ first := fun e => hout (e ▸ hother)
      rw [← hrest other hother']
      exact hwritten other hother message

/-! ### Whole runs -/

/-- A page that was not written is listed among the failures. -/
theorem ne_failed_write {outcomeOf : String → Outcome} {s : Summary}
    (htallied : Tallied directory names outcomeOf s)
    (hwritten : ∀ failure ∈ s.failures, failure.category ≠ .write) (hname : name ∈ names)
    (message : String) : outcomeOf name ≠ .failed .write message := by
  intro hfailed
  refine hwritten ⟨Path.join directory name, .write, message⟩ ?_ rfl
  rw [htallied.failures, List.mem_filterMap]
  exact ⟨name, hname, by rw [hfailed]; rfl⟩

/-- A dry run changes nothing. Where no page leads through an earlier one that is to be mended, and
the run that writes fails to write no page, the dry run tells what that run does. -/
theorem dryRun_foretells (config : Config) (loader : Loader) (startedAt : Timestamp)
    (fs : FileSystem) (directory : String) :
    (∀ fs' s, run config.dry loader stamp startedAt fs directory = .ok (fs', s) → fs' = fs) ∧
      ∀ loc fs' s, fs.WellFormed → fs.locate directory = .ok (.taken loc .directory) →
        IsStamp stamp →
        (∀ name ∈ pageNames config fs directory loc, Unused fs (temporaryName stamp name)) →
        Apart config loader fs directory loc (pageNames config fs directory loc) →
        run config loader stamp startedAt fs directory = .ok (fs', s) →
        (∀ failure ∈ s.failures, failure.category ≠ .write) →
        run config.dry loader stamp startedAt fs directory =
          .ok (fs, { s with dryRun := true }) := by
  refine ⟨fun fs' s hrun => fs_run_of_dryRun rfl hrun, ?_⟩
  intro loc fs' s hfs hlocate hstamp hunused hapart hrun hwritten
  have hpages : pageNames config.dry fs directory loc = pageNames config fs directory loc := rfl
  have hnodup : (pageNames config fs directory loc).Nodup := nodup_pageNames hfs
  obtain ⟨after, hloop⟩ := mendAll_eq config loader stamp directory hnodup { fs }
  obtain ⟨afterDry, hloopDry⟩ := mendAll_eq config.dry loader stamp directory hnodup { fs }
  have hkept : (mendAll config.dry loader stamp directory (pageNames config fs directory loc)
      { fs }).fs = fs := fs_mendAll_of_dryRun rfl _ _
  rw [run_eq config loader stamp startedAt hlocate, hloop] at hrun
  rw [hloopDry] at hkept
  rw [run_eq config.dry loader stamp startedAt hlocate, hpages, hloopDry]
  obtain ⟨-, rfl⟩ := Prod.mk.inj (Except.ok.inj hrun)
  have hnames : ∀ name ∈ pageNames config fs directory loc, IsName name := fun name hname =>
    (hfs.isName (mem_pageNames.1 hname).1).1
  -- a page has an entry and its temporary name has none
  have hne : ∀ name ∈ pageNames config fs directory loc,
      ∀ other ∈ pageNames config fs directory loc, name ≠ temporaryName stamp other := by
    intro name hname other hother he
    refine mem_names.1 (mem_pageNames.1 hname).1 ?_
    rw [he]
    exact hunused other hother loc
  have hempty : Tallied directory []
      (outcomeOf config loader stamp directory fs (pageNames config fs directory loc))
      ((Progress.mk fs .empty 0 {} []).summary config startedAt directory 0) := .nil fs
  have htallied := hempty.enterAll (pageNames config fs directory loc)
  have hsame : ∀ name ∈ pageNames config fs directory loc,
      outcomeOf config.dry loader stamp directory fs (pageNames config fs directory loc) name =
        outcomeOf config loader stamp directory fs (pageNames config fs directory loc) name := by
    intro name hname
    rw [outcomeOf_of_dryRun rfl hname, foreseen_dry]
    refine (outcomeOf_eq_foreseen hstamp (.of_locate hlocate) hnodup hnames hne hapart
      ⟨fun name _ => ⟨rfl, fun _ _ => rfl⟩, hunused⟩ ?_ hname).symm
    exact fun name hname message => ne_failed_write htallied hwritten hname message
  rw [enterAll_congr hsame] at hkept ⊢
  obtain rfl : afterDry = fs := hkept
  rfl

/-! ### A page and a link to it -/

/-- A directory with two entries. -/
def pair (a b : Entry) : FileSystem where
  entries := [(["pages"], .directory), (["pages", "a.html"], a), (["pages", "b.html"], b)]
  workingDirectory := []

/-- A page to mend. -/
def suffixed : ByteArray := "<title>A QML Type</title>".toUTF8

theorem name_cases : ∀ name ∈ ["a.html", "b.html"], IsName name ∧ Fits name ∧
    steps name = [name] ∧ Path.isAbsolute name = false ∧
    steps (Path.join "pages" name) = ["pages", name] ∧
    checkPath (Path.join "pages" name) = .ok () ∧
    Path.isAbsolute (Path.join "pages" name) = false ∧
    (Path.join "pages" name).utf8ByteSize < maxPathLength ∧
    saveFault? "0" "pages" name = none := by
  decide +kernel

theorem wellFormed_pair (a b : Entry) : (pair a b).WellFormed where
  nodup := by
    show [["pages"], ["pages", "a.html"], ["pages", "b.html"]].Nodup
    decide
  names := by
    have hvalid : ∀ l ∈ [["pages"], ["pages", "a.html"], ["pages", "b.html"]],
        ∀ name ∈ l, IsName name ∧ Fits name := by decide
    exact fun p hp => hvalid p.1 (List.mem_map_of_mem (f := Prod.fst) hp)

theorem unused_pair (a b : Entry) {name : String} (hname : name ∈ ["a.html", "b.html"]) :
    Unused (pair a b) (temporaryName "0" name) := by
  have hnames : ∀ l ∈ [["pages"], ["pages", "a.html"], ["pages", "b.html"]],
      ∀ name ∈ ["a.html", "b.html"], l.getLast? ≠ some (temporaryName "0" name) := by
    decide
  apply unused_of_getLast?
  exact fun p hp => hnames p.1 (List.mem_map_of_mem (f := Prod.fst) hp) name hname

section Pages

variable (hworking : fs.workingDirectory = []) (hpages : fs.entryAt? ["pages"] = some .directory)

include hworking hpages

theorem read_file {bytes : ByteArray} (hname : name ∈ ["a.html", "b.html"])
    (hentry : fs.entryAt? ["pages", name] = some (.file bytes)) :
    fs.read (Path.join "pages" name) = .ok bytes := by
  obtain ⟨hvalid, hfits, -, -, -, -, -, hshort, -⟩ := name_cases name hname
  rw [(LeadsTo.of_locate (locate_pages hworking hpages)).read_join hvalid hfits hentry,
    if_neg (Nat.not_le.2 hshort)]

theorem locate_link {target : String} {bytes : ByteArray} (hname : name ∈ ["a.html", "b.html"])
    (htarget : target ∈ ["a.html", "b.html"])
    (hlink : fs.entryAt? ["pages", name] = some (.link target))
    (hfile : fs.entryAt? ["pages", target] = some (.file bytes)) :
    fs.locate (Path.join "pages" name) = .ok (.taken ["pages", target] (.file bytes)) := by
  obtain ⟨hvalid, hfits, -, -, hsteps, hpath, -⟩ := name_cases name hname
  obtain ⟨htvalid, htfits, htsteps, hrelative, -⟩ := name_cases target htarget
  have hlooked : IsLookedUp "pages" := isLookedUp (by decide) (by decide)
  have hstart : fs.start (Path.join "pages" name) = [] := by rw [start, hworking, ite_self]
  rw [locate, hpath, hsteps, hstart]
  show fs.walk false (39 + 1) [] ["pages", name] = _
  rw [walk_enter hlooked (by simp) hpages,
    walk_follow (isLookedUp hvalid hfits) (by simp) hlink, htsteps, hrelative]
  exact walk_file htvalid htfits hfile

end Pages

theorem isDirectory_file (hworking : fs.workingDirectory = [])
    (hpages : fs.entryAt? ["pages"] = some .directory) {bytes : ByteArray}
    (hname : name ∈ ["a.html", "b.html"])
    (hentry : fs.entryAt? ["pages", name] = some (.file bytes)) :
    fs.isDirectory (Path.join "pages" name) = false := by
  obtain ⟨hvalid, hfits, -⟩ := name_cases name hname
  exact (LeadsTo.of_locate (locate_pages hworking hpages)).not_isDirectory_join hvalid hfits hentry

theorem pageNames_pair {a b : Entry}
    (h : ∀ name ∈ ["a.html", "b.html"], (pair a b).isDirectory (Path.join "pages" name) = false) :
    pageNames {} (pair a b) "pages" ["pages"] = ["a.html", "b.html"] := by
  have hnames : (pair a b).names ["pages"] = ["a.html", "b.html"] := by rfl
  have hcandidate : ∀ name ∈ ["a.html", "b.html"],
      isCandidate {} (pair a b) "pages" name = true := by
    intro name hname
    have hextension : ∀ name ∈ ["a.html", "b.html"],
        Path.extensionOfName? name = some "html" := by decide
    rw [isCandidate, h name hname, hextension name hname]
    rfl
  rw [pageNames, hnames, List.filter_eq_self.2 hcandidate]
  exact List.mergeSort_of_pairwise (by decide)

theorem foreseen_suffixed : ∀ name ∈ ["a.html", "b.html"],
    foreseen {} .standard (Path.join "pages" name) (.ok suffixed) = .mended [.titleSuffix] := by
  decide +kernel

/-- A page that reads as the one to mend is mended. -/
theorem mendFile_suffixed (hworking : fs.workingDirectory = [])
    (hpages : fs.entryAt? ["pages"] = some .directory) (hname : name ∈ ["a.html", "b.html"])
    (hkept : fs.entryAt? ["pages", name] ≠ some .directory)
    (hfree : fs.entryAt? ["pages", temporaryName "0" name] = none)
    (hread : fs.read (Path.join "pages" name) = .ok suffixed) :
    mendFile {} .standard "0" fs (Path.join "pages" name) =
      (fs.put ["pages", name] (.file "<title>A</title>".toUTF8), .mended [.titleSuffix]) := by
  obtain ⟨hvalid, hfits, -, -, -, -, -, hshort, hfault⟩ := name_cases name hname
  have hdirectory := LeadsTo.of_locate (locate_pages hworking hpages)
  have hforeseen := foreseen_suffixed name hname
  have hmended : (foreseen {} .standard (Path.join "pages" name)
      (fs.read (Path.join "pages" name))).isMended = true := by
    rw [hread, hforeseen]
    rfl
  obtain ⟨page, hload, hmend⟩ := exists_mendFile_put hdirectory hvalid hfits hshort hkept
    ⟨by decide, by decide⟩ hfree hfault rfl hmended
  have hwritten : ∀ name ∈ ["a.html", "b.html"],
      ((Loader.standard.pageOf (Path.join "pages" name) suffixed).toOption.map fun page =>
        (mend {} page).1.serialize) = some "<title>A</title>" := by decide +kernel
  have hpage := hwritten name hname
  rw [load_eq, hread] at hload
  have hserialize : (mend {} page).1.serialize = "<title>A</title>" := by
    have hload : Loader.standard.pageOf (Path.join "pages" name) suffixed = .ok page := hload
    rw [hload] at hpage
    exact Option.some.inj hpage
  rw [hmend, hread, hforeseen, hserialize]
  rfl

/-- A run over the two pages tells what became of each. -/
theorem exists_run_pair {a b : Entry} {fs₁ fs₂ : FileSystem} {first second : Outcome}
    (h : ∀ name ∈ ["a.html", "b.html"], (pair a b).isDirectory (Path.join "pages" name) = false)
    (hextension : config.extension = "html")
    (hfirst : mendFile config .standard "0" (pair a b) (Path.join "pages" "a.html") = (fs₁, first))
    (hsecond : mendFile config .standard "0" fs₁ (Path.join "pages" "b.html") = (fs₂, second)) :
    ∃ fs', run config .standard "0" (.ofUnixTime 0 0) (pair a b) "pages" =
      .ok (fs', (((Progress.mk (pair a b) .empty 0 {} []).enter (Path.join "pages" "a.html")
        first).enter (Path.join "pages" "b.html") second).summary config (.ofUnixTime 0 0)
          "pages" 2) := by
  have hpages : pageNames config (pair a b) "pages" ["pages"] = ["a.html", "b.html"] := by
    rw [← pageNames_pair h, pageNames, pageNames]
    congr 2
    funext name
    rw [isCandidate, isCandidate, hextension]
  have ha : outcomeOf config .standard "0" "pages" (pair a b) ["a.html", "b.html"] "a.html" =
      first := by
    rw [outcomeOf, hfirst]
    exact if_pos rfl
  have hb : outcomeOf config .standard "0" "pages" (pair a b) ["a.html", "b.html"] "b.html" =
      second := by
    have hne : "b.html" ≠ "a.html" := by decide
    simp only [outcomeOf, hfirst, hsecond, if_neg hne, if_true]
  have hnodup : ["a.html", "b.html"].Nodup := by decide
  obtain ⟨fs', hloop⟩ := mendAll_eq config .standard "0" "pages" hnodup { fs := pair a b }
  refine ⟨fs', ?_⟩
  rw [run_eq config .standard "0" (.ofUnixTime 0 0) (locate_pages rfl rfl), hpages, hloop, ← ha,
    ← hb]
  rfl

/-- What a page then is. -/
def plain : ByteArray := "<title>A</title>".toUTF8

/-- A link to a page of a later name: each is mended in both runs. -/
theorem dryRun_foretells_link :
    ∃ fs' s, run {} .standard "0" (.ofUnixTime 0 0) (pair (.link "b.html") (.file suffixed))
        "pages" = .ok (fs', s) ∧
      run (Config.dry {}) .standard "0" (.ofUnixTime 0 0)
        (pair (.link "b.html") (.file suffixed)) "pages" =
          .ok (pair (.link "b.html") (.file suffixed), { s with dryRun := true }) ∧
      s.filesModified = 2 ∧ s.failures = [] := by
  have ha : "a.html" ∈ ["a.html", "b.html"] := by decide
  have hb : "b.html" ∈ ["a.html", "b.html"] := by decide
  have hlink : (pair (.link "b.html") (.file suffixed)).locate (Path.join "pages" "a.html") =
      .ok (.taken ["pages", "b.html"] (.file suffixed)) := locate_link rfl rfl ha hb rfl rfl
  have hread : (pair (.link "b.html") (.file suffixed)).read (Path.join "pages" "a.html") =
      .ok suffixed := by
    rw [FileSystem.read, hlink]
    rfl
  have hfiles : ∀ name ∈ ["a.html", "b.html"],
      (pair (.link "b.html") (.file suffixed)).isDirectory (Path.join "pages" name) = false := by
    intro name hname
    rcases List.mem_pair.1 hname with rfl | rfl
    · rw [isDirectory, hlink]
    · exact isDirectory_file rfl rfl hb rfl
  have hpages := pageNames_pair hfiles
  -- the link becomes a file of its own, and the page is mended as well
  have hmendA : mendFile {} .standard "0" (pair (.link "b.html") (.file suffixed))
      (Path.join "pages" "a.html") =
        ((pair (.link "b.html") (.file suffixed)).put ["pages", "a.html"] (.file plain),
          .mended [.titleSuffix]) :=
    mendFile_suffixed rfl rfl ha (by decide +kernel) (by decide +kernel) hread
  have hreadB : ((pair (.link "b.html") (.file suffixed)).put ["pages", "a.html"]
      (.file plain)).read (Path.join "pages" "b.html") = .ok suffixed :=
    read_file rfl (by decide +kernel) hb (by decide +kernel)
  have hmendB := mendFile_suffixed rfl (by decide +kernel) hb (by decide +kernel)
    (by decide +kernel) hreadB
  obtain ⟨fs', hrun⟩ := exists_run_pair hfiles rfl hmendA hmendB
  -- the path of the page does not lead through the link
  have htrail : ["pages", "a.html"] ∉
      (pair (.link "b.html") (.file suffixed)).trailOf (Path.join "pages" "b.html") := by
    obtain ⟨-, -, -, -, hsteps, -⟩ := name_cases "b.html" hb
    rw [trailOf, hsteps]
    show ["pages", "a.html"] ∉
      (pair (.link "b.html") (.file suffixed)).trail maxLinks [] ["pages", "b.html"]
    have hfile : (pair (.link "b.html") (.file suffixed)).entryAt? (([] ++ ["pages"]) ++
        ["b.html"]) = some (.file suffixed) := rfl
    rw [trail_enter (isLookedUp (by decide) (by decide +kernel)) rfl,
      trail_file (isLookedUp (by decide) (by decide +kernel)) hfile]
    decide
  have hapart : Apart {} .standard (pair (.link "b.html") (.file suffixed)) "pages" ["pages"]
      ["a.html", "b.html"] :=
    List.pairwise_pair.2 fun _ => htrail
  refine ⟨_, _, hrun, ?_, rfl, rfl⟩
  refine (dryRun_foretells {} .standard (.ofUnixTime 0 0) _ "pages").2 ["pages"] _ _
    (wellFormed_pair _ _) (locate_pages rfl rfl) ⟨by decide, by decide⟩ ?_ ?_ hrun
    (by simp [Progress.enter, Progress.summary])
  · intro name hname
    exact unused_pair _ _ (hpages ▸ hname)
  · rw [hpages]
    exact hapart

/-- A link to a page of an earlier name: the dry run counts it, and the run that writes finds its
page already mended. -/
theorem dryRun_counts_link :
    ∃ fs' s s', run {} .standard "0" (.ofUnixTime 0 0) (pair (.file suffixed) (.link "a.html"))
        "pages" = .ok (fs', s) ∧
      run (Config.dry {}) .standard "0" (.ofUnixTime 0 0)
        (pair (.file suffixed) (.link "a.html")) "pages" =
          .ok (pair (.file suffixed) (.link "a.html"), s') ∧
      s.failures = [] ∧ s.filesModified = 1 ∧ s'.filesModified = 2 := by
  have ha : "a.html" ∈ ["a.html", "b.html"] := by decide
  have hb : "b.html" ∈ ["a.html", "b.html"] := by decide
  have hlink : (pair (.file suffixed) (.link "a.html")).locate (Path.join "pages" "b.html") =
      .ok (.taken ["pages", "a.html"] (.file suffixed)) := locate_link rfl rfl hb ha rfl rfl
  have hfiles : ∀ name ∈ ["a.html", "b.html"],
      (pair (.file suffixed) (.link "a.html")).isDirectory (Path.join "pages" name) = false := by
    intro name hname
    rcases List.mem_pair.1 hname with rfl | rfl
    · exact isDirectory_file rfl rfl ha rfl
    · rw [isDirectory, hlink]
  have hreadA : (pair (.file suffixed) (.link "a.html")).read (Path.join "pages" "a.html") =
      .ok suffixed := read_file rfl rfl ha rfl
  have hreadB : (pair (.file suffixed) (.link "a.html")).read (Path.join "pages" "b.html") =
      .ok suffixed := by
    rw [FileSystem.read, hlink]
    rfl
  -- in the dry run both read as the page to mend
  have hdry : ∀ name ∈ ["a.html", "b.html"],
      mendFile (Config.dry {}) .standard "0" (pair (.file suffixed) (.link "a.html"))
        (Path.join "pages" name) =
          (pair (.file suffixed) (.link "a.html"), .mended [.titleSuffix]) := by
    intro name hname
    have hread : (pair (.file suffixed) (.link "a.html")).read (Path.join "pages" name) =
        .ok suffixed := by
      rcases List.mem_pair.1 hname with rfl | rfl
      · exact hreadA
      · exact hreadB
    rw [mendFile_of_kept (.inl rfl), hread, foreseen_dry, foreseen_suffixed name hname]
  -- otherwise the link reads what was written
  have hmendA := mendFile_suffixed rfl rfl ha (by decide +kernel) (by decide +kernel) hreadA
  have hplain : ((pair (.file suffixed) (.link "a.html")).put ["pages", "a.html"]
      (.file plain)).locate (Path.join "pages" "b.html") =
        .ok (.taken ["pages", "a.html"] (.file plain)) :=
    locate_link rfl (by decide +kernel) hb ha (by decide +kernel) (by decide +kernel)
  have hforeseen : foreseen {} .standard (Path.join "pages" "b.html")
      (((pair (.file suffixed) (.link "a.html")).put ["pages", "a.html"] (.file plain)).read
        (Path.join "pages" "b.html")) = .untouched := by
    have hread : foreseen {} .standard (Path.join "pages" "b.html") (.ok plain) = .untouched := by
      decide +kernel
    rw [FileSystem.read, hplain]
    exact hread
  have hmendB : mendFile {} .standard "0"
      ((pair (.file suffixed) (.link "a.html")).put ["pages", "a.html"] (.file plain))
      (Path.join "pages" "b.html") = (_, .untouched) :=
    hforeseen ▸ mendFile_of_kept (.inr (congrArg Outcome.isMended hforeseen))
  obtain ⟨fs', hrun⟩ := exists_run_pair hfiles rfl hmendA hmendB
  obtain ⟨fsDry, hrunDry⟩ := exists_run_pair hfiles rfl (hdry _ ha) (hdry _ hb)
  obtain rfl := fs_run_of_dryRun rfl hrunDry
  exact ⟨fs', _, _, hrun, hrunDry, rfl, rfl, rfl⟩

end Batch

end PageMend
