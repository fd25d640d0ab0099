import PageMend.Storage.FileSystem
import PageMend.Proofs.Storage.Path

/-!
# Reaching a directory

`Reaches` is the relation behind `walk` where it ends in a directory: one rule for each way to go
on, and the two agree (`reaches_iff_walk`). Whether a directory is reached depends only on the
parts that lead somewhere (`Reaches.of_filter_eq`), and on the directories and links of the file
system but not on its files (`Reaches.of_entries`). What is followed behind such parts is followed
from the directory that they reach (`Reaches.exists_walk_append`).
-/

namespace PageMend.Storage

namespace FileSystem

/-! ### The rules -/

/-- A part that is looked up in the directory where it is met. -/
structure IsLookedUp (name : String) : Prop where
  leads : ¬(name = "" ∨ name = ".")
  ne_dots : name ≠ ".."
  short : ¬maxNameLength < name.utf8ByteSize

/-- The parts lead from one directory to another, through no more than so many links. -/
inductive Reaches (fs : FileSystem) : Nat → Location → List String → Location → Prop
  | done {links here} : Reaches fs links here [] here
  | skip {links here name rest loc} (hname : name = "" ∨ name = ".")
      (h : Reaches fs links here rest loc) : Reaches fs links here (name :: rest) loc
  | up {links here rest loc} (h : Reaches fs links here.dropLast rest loc) :
      Reaches fs links here (".." :: rest) loc
  | enter {links here name rest loc} (hname : IsLookedUp name)
      (hentry : fs.entryAt? (here ++ [name]) = some .directory)
      (h : Reaches fs links (here ++ [name]) rest loc) : Reaches fs links here (name :: rest) loc
  | follow {links here name rest loc target} (hname : IsLookedUp name)
      (hentry : fs.entryAt? (here ++ [name]) = some (.link target))
      (h : Reaches fs links (if Path.isAbsolute target then [] else here)
        (steps target ++ rest) loc) :
      Reaches fs (links + 1) here (name :: rest) loc

variable {fs : FileSystem} {making : Bool} {links : Nat} {here loc : Location} {name : String}
  {rest xs ys : List String}

/-! ### One step of a walk -/

theorem walk_skip (h : name = "" ∨ name = ".") :
    fs.walk making links here (name :: rest) = fs.walk making links here rest := by
  rw [walk, if_pos h]

theorem walk_up :
    fs.walk making links here (".." :: rest) = fs.walk making links here.dropLast rest := by
  rw [walk, if_neg (by decide), if_pos rfl]

theorem walk_enter (hname : IsLookedUp name) (hrest : ¬(making = true ∧ rest = [""]))
    (hentry : fs.entryAt? (here ++ [name]) = some .directory) :
    fs.walk making links here (name :: rest) = fs.walk making links (here ++ [name]) rest := by
  rw [walk, if_neg hname.leads, if_neg hname.ne_dots, if_neg hrest, if_neg hname.short]
  simp only [hentry]

theorem walk_follow {target : String} (hname : IsLookedUp name)
    (hrest : ¬(making = true ∧ rest = [""]))
    (hentry : fs.entryAt? (here ++ [name]) = some (.link target)) :
    fs.walk making (links + 1) here (name :: rest) =
      fs.walk making links (if Path.isAbsolute target then [] else here)
        (steps target ++ rest) := by
  rw [walk, if_neg hname.leads, if_neg hname.ne_dots, if_neg hrest, if_neg hname.short]
  simp only [hentry]

/-! ### The relation and the walk -/

theorem Reaches.of_walk (h : fs.walk false links here xs = .ok (.taken loc .directory)) :
    fs.Reaches links here xs loc := by
  fun_induction walk fs false links here xs with
  | case1 => cases h; exact .done
  | case2 links here name rest hname ih => exact .skip hname (ih h)
  | case3 links here rest _ ih => exact .up (ih h)
  | case8 links here name rest hleads hdots _ hshort hentry ih =>
    exact .enter ⟨hleads, hdots, hshort⟩ hentry (ih h)
  | case12 here name rest hleads hdots _ hshort target hentry links ih =>
    exact .follow ⟨hleads, hdots, hshort⟩ hentry (ih h)
  -- everything else ends in a file, in a vacant place or in an error
  | _ => cases h

theorem Reaches.walk_eq (h : fs.Reaches links here xs loc) :
    fs.walk false links here xs = .ok (.taken loc .directory) := by
  induction h with
  | done => rw [walk]
  | skip hname _ ih => rw [walk_skip hname, ih]
  | up _ ih => rw [walk_up, ih]
  | enter hname hentry _ ih => rw [walk_enter hname (by simp) hentry, ih]
  | follow hname hentry _ ih => rw [walk_follow hname (by simp) hentry, ih]

theorem reaches_iff_walk :
    fs.Reaches links here xs loc ↔
      fs.walk false links here xs = .ok (.taken loc .directory) :=
  ⟨Reaches.walk_eq, Reaches.of_walk⟩

/-- Behind parts that reach a directory a walk goes on from there. How many links are left does
not depend on how it goes on. The walk must not end in the directory: where a file is to be made,
the last part is treated otherwise. -/
theorem Reaches.exists_walk_append (h : fs.Reaches links here xs loc) :
    ∃ left, ∀ making ys, ys ≠ [] → ys ≠ [""] →
      fs.walk making links here (xs ++ ys) = fs.walk making left loc ys := by
  -- what stands behind a part is never a lone empty part, so no step refuses a slash
  have hrest : ∀ {making : Bool} {rest ys : List String}, ys ≠ [] → ys ≠ [""] →
      ¬(making = true ∧ rest ++ ys = [""]) := by
    intro making rest ys hne hslash ⟨_, he⟩
    cases rest with
    | nil => exact hslash he
    | cons x rest => exact hne (List.append_eq_nil_iff.1 (List.cons.inj he).2).2
  induction h with
  | done => exact ⟨_, fun _ _ _ _ => rfl⟩
  | skip hname _ ih =>
    obtain ⟨left, ih⟩ := ih
    exact ⟨left, fun making ys hne hslash => (walk_skip hname).trans (ih making ys hne hslash)⟩
  | up _ ih =>
    obtain ⟨left, ih⟩ := ih
    exact ⟨left, fun making ys hne hslash => walk_up.trans (ih making ys hne hslash)⟩
  | enter hname hentry _ ih =>
    obtain ⟨left, ih⟩ := ih
    refine ⟨left, fun making ys hne hslash => ?_⟩
    exact (walk_enter hname (hrest hne hslash) hentry).trans (ih making ys hne hslash)
  | follow hname hentry _ ih =>
    obtain ⟨left, ih⟩ := ih
    refine ⟨left, fun making ys hne hslash => ?_⟩
    rw [List.cons_append, walk_follow hname (hrest hne hslash) hentry, ← List.append_assoc]
    exact ih making ys hne hslash

/-! ### What a directory is reached by -/

/-- Directories are reached alike in all file systems with these directories and links. -/
theorem Reaches.of_entries {fs' : FileSystem} (h : fs.Reaches links here xs loc)
    (hentry : ∀ l e, (∀ bytes, e ≠ .file bytes) → fs.entryAt? l = some e →
      fs'.entryAt? l = some e) :
    fs'.Reaches links here xs loc := by
  induction h with
  | done => exact .done
  | skip hname _ ih => exact .skip hname ih
  | up _ ih => exact .up ih
  | enter hname he _ ih => exact .enter hname (hentry _ _ (fun _ => Entry.noConfusion) he) ih
  | follow hname he _ ih => exact .follow hname (hentry _ _ (fun _ => Entry.noConfusion) he) ih

theorem eq_of_not_leads (h : ¬Path.leads name = true) : name = "" ∨ name = "." := by
  by_cases hempty : name = ""
  · exact .inl hempty
  · exact .inr (by simpa [Path.leads, hempty] using h)

theorem IsLookedUp.of_leads (h : IsLookedUp name) : Path.leads name = true := by
  have hleads := not_or.1 h.leads
  simp [Path.leads, hleads.1, hleads.2]

theorem Reaches.skips (h : fs.Reaches links here ys loc) (hxs : ∀ x ∈ xs, ¬Path.leads x = true) :
    fs.Reaches links here (xs ++ ys) loc := by
  induction xs with
  | nil => exact h
  | cons x xs ih =>
    have hx : x = "" ∨ x = "." := eq_of_not_leads (hxs x List.mem_cons_self)
    exact .skip hx (ih fun y hy => hxs y (List.mem_cons_of_mem x hy))

/-- Only the parts count that lead somewhere. -/
theorem Reaches.of_filter_eq (h : fs.Reaches links here xs loc)
    (hparts : ys.filter Path.leads = xs.filter Path.leads) : fs.Reaches links here ys loc := by
  -- a part that leads somewhere stands in the other list too, behind some that do not
  have hcut : ∀ {name : String} {rest ys : List String}, Path.leads name = true →
      ys.filter Path.leads = (name :: rest).filter Path.leads →
      ∃ skipped behind, ys = skipped ++ name :: behind ∧
        (∀ x ∈ skipped, ¬Path.leads x = true) ∧
        behind.filter Path.leads = rest.filter Path.leads := by
    intro name rest ys hname hys
    rw [List.filter_cons_of_pos hname] at hys
    obtain ⟨skipped, behind, rfl, hskipped, -, hbehind⟩ := List.filter_eq_cons_iff.1 hys
    exact ⟨skipped, behind, rfl, hskipped, hbehind⟩
  induction h generalizing ys with
  | done =>
    have hys : ∀ y ∈ ys, ¬Path.leads y = true := List.filter_eq_nil_iff.1 hparts
    simpa using Reaches.skips .done hys
  | skip hname _ ih =>
    refine ih (hparts.trans (List.filter_cons_of_neg ?_))
    rcases hname with rfl | rfl <;> decide
  | up _ ih =>
    obtain ⟨skipped, behind, rfl, hskipped, hbehind⟩ := hcut (by decide) hparts
    exact .skips (.up (ih hbehind)) hskipped
  | enter hname hentry _ ih =>
    obtain ⟨skipped, behind, rfl, hskipped, hbehind⟩ := hcut hname.of_leads hparts
    exact .skips (.enter hname hentry (ih hbehind)) hskipped
  | follow hname hentry _ ih =>
    obtain ⟨skipped, behind, rfl, hskipped, hbehind⟩ := hcut hname.of_leads hparts
    apply Reaches.skips (.follow hname hentry (ih ?_)) hskipped
    rw [List.filter_append, List.filter_append, hbehind]

end FileSystem

end PageMend.Storage
