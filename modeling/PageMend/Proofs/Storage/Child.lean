import PageMend.Proofs.Storage.Trail

/-!
# The entries of a directory

An entry of a directory is a folder if it is a directory or a link that leads to one, through
however many links (`IsFolder`). Whether the system sees that at the path of the entry is another
matter: the path must not be too long, and the links on the way to the directory count as well
(`FindsFolder`, `LeadsTo.isDirectory_join_iff`).

None of this depends on the order in which the entries of the file system are listed
(`Reordered.isDirectory`), but for the order of `names`.
-/

namespace PageMend.Storage

namespace FileSystem

variable {fs fs' : FileSystem} {links m n : Nat} {here mid loc : Location} {name : String}
  {xs ys : List String}

/-! ### Paths in two parts -/

/-- More links may be left. -/
theorem Reaches.mono (h : fs.Reaches m here xs loc) (hle : m ≤ n) : fs.Reaches n here xs loc := by
  induction h generalizing n with
  | done => exact .done
  | skip hname _ ih => exact .skip hname (ih hle)
  | up _ ih => exact .up (ih hle)
  | enter hname hentry _ ih => exact .enter hname hentry (ih hle)
  | follow hname hentry _ ih =>
    obtain ⟨n, rfl⟩ := Nat.exists_eq_succ_of_ne_zero (Nat.ne_zero_of_lt hle)
    exact .follow hname hentry (ih (Nat.le_of_succ_le_succ hle))

/-- Parts lead to one directory only. -/
theorem Reaches.unique (h : fs.Reaches m here xs mid) (h' : fs.Reaches n here xs loc) :
    mid = loc := by
  have hmid := (h.mono (Nat.le_max_left m n)).walk_eq
  have hloc := (h'.mono (Nat.le_max_right m n)).walk_eq
  cases hmid.symm.trans hloc
  rfl

/-- The links on two ways one behind the other add up. -/
theorem Reaches.append (h : fs.Reaches m here xs mid) (h' : fs.Reaches n mid ys loc) :
    fs.Reaches (m + n) here (xs ++ ys) loc := by
  induction h with
  | done => exact h'.mono (Nat.le_add_left _ _)
  | skip hname _ ih => exact .skip hname (ih h')
  | up _ ih => exact .up (ih h')
  | enter hname hentry _ ih => exact .enter hname hentry (ih h')
  | follow hname hentry _ ih =>
    rw [Nat.add_right_comm, List.cons_append]
    have ih := ih h'
    rw [List.append_assoc] at ih
    exact .follow hname hentry ih

/-- A way can be cut anywhere. -/
theorem Reaches.split (h : fs.Reaches links here (xs ++ ys) loc) :
    ∃ m n mid, m + n = links ∧ fs.Reaches m here xs mid ∧ fs.Reaches n mid ys loc := by
  generalize hparts : xs ++ ys = parts at h
  -- a way in front of which nothing is cut off
  have hwhole : ∀ {links here loc}, fs.Reaches links here ys loc →
      ∃ m n mid, m + n = links ∧ fs.Reaches m here [] mid ∧ fs.Reaches n mid ys loc :=
    fun h => ⟨0, _, _, Nat.zero_add _, .done, h⟩
  induction h generalizing xs with
  | done =>
    obtain ⟨rfl, rfl⟩ := List.append_eq_nil_iff.1 hparts
    exact hwhole .done
  | skip hname h ih =>
    rcases List.append_eq_cons_iff.1 hparts with ⟨rfl, rfl⟩ | ⟨xs, rfl, rfl⟩
    · exact hwhole (.skip hname h)
    · obtain ⟨m, n, mid, hsum, hfirst, hsecond⟩ := ih rfl
      exact ⟨m, n, mid, hsum, .skip hname hfirst, hsecond⟩
  | up h ih =>
    rcases List.append_eq_cons_iff.1 hparts with ⟨rfl, rfl⟩ | ⟨xs, rfl, rfl⟩
    · exact hwhole (.up h)
    · obtain ⟨m, n, mid, hsum, hfirst, hsecond⟩ := ih rfl
      exact ⟨m, n, mid, hsum, .up hfirst, hsecond⟩
  | enter hname hentry h ih =>
    rcases List.append_eq_cons_iff.1 hparts with ⟨rfl, rfl⟩ | ⟨xs, rfl, rfl⟩
    · exact hwhole (.enter hname hentry h)
    · obtain ⟨m, n, mid, hsum, hfirst, hsecond⟩ := ih rfl
      exact ⟨m, n, mid, hsum, .enter hname hentry hfirst, hsecond⟩
  | follow hname hentry h ih =>
    rcases List.append_eq_cons_iff.1 hparts with ⟨rfl, rfl⟩ | ⟨xs, rfl, rfl⟩
    · exact hwhole (.follow hname hentry h)
    · obtain ⟨m, n, mid, hsum, hfirst, hsecond⟩ := ih (List.append_assoc _ _ _)
      exact ⟨m + 1, n, mid, by omega, .follow hname hentry hfirst, hsecond⟩

/-! ### Folders -/

/-- An entry is a directory, or a link that leads to one, through however many links. -/
def IsFolder (fs : FileSystem) (loc : Location) (name : String) : Prop :=
  ∃ links target, fs.Reaches links loc [name] target

/-- The system finds the folder at its path: the path is not too long, and there are not too many
links on the way to its directory and from there. -/
structure FindsFolder (fs : FileSystem) (directory : String) (loc : Location) (name : String) :
    Prop where
  short : (Path.join directory name).utf8ByteSize < maxPathLength
  reaches : ∃ m n target, m + n ≤ maxLinks ∧
    fs.Reaches m (fs.start directory) (steps directory) loc ∧ fs.Reaches n loc [name] target

theorem FindsFolder.isFolder {directory : String} (h : fs.FindsFolder directory loc name) :
    fs.IsFolder loc name := by
  obtain ⟨-, n, target, -, -, hreaches⟩ := h.reaches
  exact ⟨n, target, hreaches⟩

theorem IsFolder.of_directory (hname : IsName name) (hfits : Fits name)
    (hentry : fs.entryAt? (loc ++ [name]) = some .directory) : fs.IsFolder loc name :=
  ⟨0, _, .enter (isLookedUp hname hfits) hentry .done⟩

theorem not_isFolder_of_file {bytes : ByteArray} (hname : IsName name) (hfits : Fits name)
    (hentry : fs.entryAt? (loc ++ [name]) = some (.file bytes)) : ¬fs.IsFolder loc name := by
  rintro ⟨links, target, hreaches⟩
  cases hreaches.walk_eq.symm.trans (walk_file hname hfits hentry)

/-- A link is a folder if its target is. -/
theorem isFolder_link_iff {target : String} (hname : IsLookedUp name)
    (hentry : fs.entryAt? (loc ++ [name]) = some (.link target)) :
    fs.IsFolder loc name ↔
      ∃ links dir, fs.Reaches links (if Path.isAbsolute target then [] else loc)
        (steps target) dir := by
  constructor
  · rintro ⟨links, dir, hreaches⟩
    have hwalk := (hreaches.mono (Nat.le_succ links)).walk_eq
    rw [walk_follow hname (by simp) hentry, List.append_nil] at hwalk
    exact ⟨links, dir, .of_walk hwalk⟩
  · rintro ⟨links, dir, hreaches⟩
    refine ⟨links + 1, dir, .follow hname hentry ?_⟩
    rwa [List.append_nil]

theorem isDirectory_iff {path : String} :
    fs.isDirectory path = true ↔ ∃ loc, fs.locate path = .ok (.taken loc .directory) := by
  unfold isDirectory
  split
  · rename_i loc hlocate
    exact ⟨fun _ => ⟨loc, hlocate⟩, fun _ => rfl⟩
  · rename_i hlocate
    exact ⟨fun h => (nomatch h), fun ⟨loc, h⟩ => absurd h (hlocate loc)⟩

/-- A path that leads to a directory is found if it is not too long. -/
theorem LeadsTo.locate_eq {path : String} (h : fs.LeadsTo path loc)
    (hshort : path.utf8ByteSize < maxPathLength) :
    fs.locate path = .ok (.taken loc .directory) := by
  rw [locate, checkPath_eq h.ne_empty h.no_nul, if_neg (Nat.not_le.2 hshort)]
  exact h.reaches.walk_eq

/-- An entry is seen as a directory just when it is a folder that the system finds at its path. -/
theorem LeadsTo.isDirectory_join_iff {directory : String} (h : fs.LeadsTo directory loc)
    (hname : IsName name) :
    fs.isDirectory (Path.join directory name) = true ↔ fs.FindsFolder directory loc name := by
  have hstart : fs.start (Path.join directory name) = fs.start directory := by
    rw [start, start, Path.isAbsolute_join name h.ne_empty]
  have hparts : ((Path.segments (Path.stem directory)).filter (· ≠ "")).filter Path.leads =
      (steps directory).filter Path.leads := by
    rw [filter_filter_leads, filter_steps, ← Path.parts_stem, Path.parts]
  rw [isDirectory_iff]
  constructor
  · rintro ⟨target, hlocate⟩
    have hshort : (Path.join directory name).utf8ByteSize < maxPathLength := by
      refine Nat.lt_of_not_le fun hlong => ?_
      rw [locate, h.checkPath_join hname, if_pos hlong] at hlocate
      cases hlocate
    have hreaches := (LeadsTo.of_locate hlocate).reaches
    rw [hstart, steps_join directory hname] at hreaches
    obtain ⟨m, n, mid, hsum, hfirst, hsecond⟩ := hreaches.split
    have hfirst := hfirst.of_filter_eq hparts.symm
    obtain rfl := hfirst.unique h.reaches
    exact ⟨hshort, m, n, target, Nat.le_of_eq hsum, hfirst, hsecond⟩
  · rintro ⟨hshort, m, n, target, hsum, hfirst, hsecond⟩
    refine ⟨target, ?_⟩
    have hreaches := ((hfirst.of_filter_eq hparts).append hsecond).mono hsum
    rw [locate, h.checkPath_join hname, if_neg (Nat.not_le.2 hshort), hstart,
      steps_join directory hname]
    exact hreaches.walk_eq

/-! ### The order of entries -/

/-- A list of entries at distinct locations can be looked up in any order. -/
theorem lookup_perm {entries entries' : List (Location × Entry)}
    (hnodup : (entries.map Prod.fst).Nodup) (hperm : entries'.Perm entries) (l : Location) :
    entries'.lookup l = entries.lookup l := by
  induction hperm with
  | nil => rfl
  | cons p _ ih =>
    obtain ⟨k, e⟩ := p
    rw [lookup_cons_if, lookup_cons_if, ih (List.nodup_cons.1 hnodup).2]
  | swap p q entries =>
    obtain ⟨k, e⟩ := p
    obtain ⟨j, d⟩ := q
    have hne : k ≠ j := fun he => (List.nodup_cons.1 hnodup).1 (by simp [he])
    simp only [lookup_cons_if]
    by_cases hk : l = k
    · rw [if_pos hk, if_pos hk, if_neg (hk ▸ hne)]
    · rw [if_neg hk, if_neg hk]
  | trans _ hperm ih ih' =>
    exact (ih ((hperm.map Prod.fst).nodup_iff.2 hnodup)).trans (ih' hnodup)

/-- Two file systems are the same but for the order in which they list their entries. -/
structure Reordered (fs fs' : FileSystem) : Prop where
  entries : fs'.entries.Perm fs.entries
  workingDirectory : fs'.workingDirectory = fs.workingDirectory

section Order
variable (h : Reordered fs fs')
include h

theorem Reordered.names (loc : Location) : (fs'.names loc).Perm (fs.names loc) :=
  h.entries.filterMap _

variable (hfs : fs.WellFormed)
include hfs

theorem Reordered.entryAt (l : Location) : fs'.entryAt? l = fs.entryAt? l := by
  rw [entryAt?, entryAt?, lookup_perm hfs.nodup h.entries]

theorem Reordered.agree (path : String) : Agree fs fs' path :=
  ⟨h.workingDirectory, fun l _ => h.entryAt hfs l⟩

theorem Reordered.isDirectory (path : String) : fs'.isDirectory path = fs.isDirectory path := by
  rw [FileSystem.isDirectory, FileSystem.isDirectory, (h.agree hfs path).locate]

end Order

end FileSystem

end PageMend.Storage
