import Mathlib.Data.List.Nodup
import PageMend.Proofs.Storage.Walk

/-!
# What the operations do

Each operation on a path that is a name behind a directory is told by what it does to the entry of
that name: `read_join`, `write_join`, `locateParent_join`. The directory may be spelled in any way
and be reached through links; only the length of the whole path matters besides (`LeadsTo`).

A file system is well formed if no two entries share a location and every name is one that an
entry can have; `put` and `drop` keep that.
-/

namespace PageMend.Storage

namespace FileSystem

variable {fs fs' : FileSystem} {loc l : Location} {e : Entry} {name : String}

/-! ### Entries -/

theorem lookup_cons_if (entries : List (Location × Entry)) (k l : Location) (e : Entry) :
    ((k, e) :: entries).lookup l = if l = k then some e else entries.lookup l := by
  by_cases h : l = k
  · simp [h]
  · have hne : (l == k) = false := beq_eq_false_iff_ne.2 h
    simp [List.lookup_cons, hne, h]

theorem lookup_filter_ne (entries : List (Location × Entry)) (loc l : Location) :
    (entries.filter (·.1 ≠ loc)).lookup l = if l = loc then none else entries.lookup l := by
  induction entries with
  | nil => simp
  | cons p entries ih =>
    obtain ⟨k, e⟩ := p
    by_cases hk : k = loc
    · rw [List.filter_cons_of_neg (by simpa using hk), ih, lookup_cons_if]
      split
      · rfl
      · rename_i hl
        rw [if_neg (hk ▸ hl)]
    · rw [List.filter_cons_of_pos (by simpa using hk), lookup_cons_if, lookup_cons_if, ih]
      split
      · rename_i hl
        rw [if_neg (hl ▸ hk)]
      · rfl

theorem entryAt?_put (h : loc ≠ []) :
    (fs.put loc e).entryAt? l = if l = loc then some e else fs.entryAt? l := by
  simp only [entryAt?, put, lookup_cons_if, lookup_filter_ne]
  by_cases hl : l = loc
  · simp [hl, h]
  · simp [hl]

theorem entryAt?_append (fs : FileSystem) (loc : Location) (name : String) :
    fs.entryAt? (loc ++ [name]) = fs.entries.lookup (loc ++ [name]) := by
  rw [entryAt?, if_neg (by simp)]

/-- The name that a location has in a directory, if it lies there. -/
def nameIn? (directory l : Location) : Option String :=
  match l.getLast? with
  | some name => if l.dropLast = directory then some name else none
  | none => none

theorem nameIn?_eq_some : nameIn? loc l = some name ↔ l = loc ++ [name] := by
  constructor
  · intro h
    cases hlast : l.getLast? with
    | none => simp [nameIn?, hlast] at h
    | some last =>
      obtain ⟨xs, rfl⟩ := List.getLast?_eq_some_iff.1 hlast
      obtain ⟨rfl, rfl⟩ : xs = loc ∧ last = name := by simpa [nameIn?] using h
      rfl
  · rintro rfl
    simp [nameIn?]

theorem names_eq (fs : FileSystem) (loc : Location) :
    fs.names loc = (fs.entries.map Prod.fst).filterMap (nameIn? loc) := by
  rw [List.filterMap_map]
  rfl

/-- The names in a directory are those with an entry there. -/
theorem mem_names : name ∈ fs.names loc ↔ fs.entryAt? (loc ++ [name]) ≠ none := by
  rw [entryAt?_append, Ne, List.lookup_eq_none_iff, names_eq, List.mem_filterMap]
  simp only [nameIn?_eq_some, exists_eq_right, List.mem_map]
  constructor
  · rintro ⟨p, hp, hloc⟩ hnone
    simpa [hloc] using hnone p hp
  · intro hsome
    obtain ⟨p, hp, hloc⟩ : ∃ p ∈ fs.entries, loc ++ [name] = p.1 := by simpa using hsome
    exact ⟨p, hp, hloc.symm⟩

/-! ### Well-formed file systems -/

/-- A name is not too long. -/
def Fits (name : String) : Prop := ¬maxNameLength < name.utf8ByteSize

instance : DecidablePred Fits := fun _ => inferInstanceAs (Decidable (¬maxNameLength < _))

structure WellFormed (fs : FileSystem) : Prop where
  /-- No two entries share a location. -/
  nodup : (fs.entries.map Prod.fst).Nodup
  names : ∀ p ∈ fs.entries, ∀ name ∈ p.1, IsName name ∧ Fits name

instance (fs : FileSystem) : Decidable fs.WellFormed :=
  decidable_of_iff
    ((fs.entries.map Prod.fst).Nodup ∧ ∀ p ∈ fs.entries, ∀ name ∈ p.1, IsName name ∧ Fits name)
    ⟨fun h => ⟨h.1, h.2⟩, fun h => ⟨h.nodup, h.names⟩⟩

theorem WellFormed.nodup_names (h : fs.WellFormed) (loc : Location) : (fs.names loc).Nodup := by
  rw [names_eq]
  apply h.nodup.filterMap
  intro k k' name hk hk'
  rw [nameIn?_eq_some.1 hk, nameIn?_eq_some.1 hk']

theorem WellFormed.isName (h : fs.WellFormed) (hname : name ∈ fs.names loc) :
    IsName name ∧ Fits name := by
  rw [names_eq, List.mem_filterMap] at hname
  obtain ⟨k, hk, hloc⟩ := hname
  obtain ⟨p, hp, rfl⟩ := List.mem_map.1 hk
  exact h.names p hp name (by simp [nameIn?_eq_some.1 hloc])

/-- The names on the way to an entry are names that entries can have. -/
theorem WellFormed.names_of_entryAt? (h : fs.WellFormed) (hentry : fs.entryAt? loc = some e) :
    ∀ name ∈ loc, IsName name ∧ Fits name := by
  by_cases hloc : loc = []
  · simp [hloc]
  · rw [entryAt?, if_neg hloc] at hentry
    obtain ⟨before, behind, hmem, -⟩ := List.lookup_eq_some_iff.1 hentry
    exact h.names (loc, e) (hmem ▸ by simp)

theorem WellFormed.drop (h : fs.WellFormed) (loc : Location) : (fs.drop loc).WellFormed where
  nodup := h.nodup.sublist (List.filter_sublist.map _)
  names p hp := h.names p (List.mem_filter.1 hp).1

theorem WellFormed.put (h : fs.WellFormed) (hloc : ∀ name ∈ loc, IsName name ∧ Fits name)
    (e : Entry) : (fs.put loc e).WellFormed where
  nodup := by
    refine List.nodup_cons.2 ⟨?_, (h.drop loc).nodup⟩
    simp
  names p hp := by
    rcases List.mem_cons.1 hp with rfl | hp
    · exact hloc
    · exact (h.drop loc).names p hp

/-! ### A name at the end of a walk -/

theorem isLookedUp (hname : IsName name) (hfits : Fits name) : IsLookedUp name :=
  ⟨not_or.2 ⟨hname.ne_empty, hname.ne_dot⟩, hname.ne_dots, hfits⟩

section Last

variable {making : Bool} {links : Nat} (hname : IsName name)

include hname

theorem walk_file (hfits : Fits name) {bytes : ByteArray}
    (hentry : fs.entryAt? (loc ++ [name]) = some (.file bytes)) :
    fs.walk making links loc [name] = .ok (.taken (loc ++ [name]) (.file bytes)) := by
  have hlooked := isLookedUp hname hfits
  rw [walk, if_neg hlooked.leads, if_neg hlooked.ne_dots, if_neg (by simp), if_neg hlooked.short]
  simp only [hentry, if_pos]

theorem walk_vacant (hfits : Fits name) (hentry : fs.entryAt? (loc ++ [name]) = none) :
    fs.walk making links loc [name] = .ok (.vacant loc name) := by
  have hlooked := isLookedUp hname hfits
  rw [walk, if_neg hlooked.leads, if_neg hlooked.ne_dots, if_neg (by simp), if_neg hlooked.short]
  simp only [hentry, if_pos]

theorem walk_too_long (hlong : maxNameLength < name.utf8ByteSize) :
    fs.walk making links loc [name] = .error .nameTooLong := by
  rw [walk, if_neg (not_or.2 ⟨hname.ne_empty, hname.ne_dot⟩), if_neg hname.ne_dots,
    if_neg (by simp), if_pos hlong]

end Last

/-! ### Paths behind a directory -/

/-- A path leads to a directory, its length left aside. -/
structure LeadsTo (fs : FileSystem) (path : String) (loc : Location) : Prop where
  ne_empty : path ≠ ""
  no_nul : '\x00' ∉ path.toList
  reaches : fs.Reaches maxLinks (fs.start path) (steps path) loc

theorem filter_filter_leads (xs : List String) :
    (xs.filter (· ≠ "")).filter Path.leads = xs.filter Path.leads := by
  rw [List.filter_filter]
  apply List.filter_congr
  intro x _
  by_cases hx : x = "" <;> simp [Path.leads, hx]

theorem filter_steps (path : String) : (steps path).filter Path.leads = Path.parts path := by
  rw [steps, List.filter_append, filter_filter_leads, Path.parts]
  split <;> simp [Path.leads]

theorem checkPath_eq {path : String} (hne : path ≠ "") (hnul : '\x00' ∉ path.toList) :
    checkPath path =
      if maxPathLength ≤ path.utf8ByteSize then .error .nameTooLong else .ok () := by
  rw [checkPath, if_neg hne, if_neg (by simpa using hnul)]

theorem LeadsTo.of_locate {path : String} (h : fs.locate path = .ok (.taken loc .directory)) :
    fs.LeadsTo path loc := by
  by_cases hne : path = ""
  · simp [locate, checkPath, hne, bind, Except.bind] at h
  by_cases hnul : '\x00' ∈ path.toList
  · simp [locate, checkPath, hne, hnul, bind, Except.bind] at h
  by_cases hlong : maxPathLength ≤ path.utf8ByteSize
  · simp [locate, checkPath_eq hne hnul, hlong, bind, Except.bind] at h
  · refine ⟨hne, hnul, .of_walk ?_⟩
    simpa [locate, checkPath_eq hne hnul, hlong, bind, Except.bind] using h

theorem steps_join (directory : String) (hname : IsName name) :
    steps (Path.join directory name) =
      (Path.segments (Path.stem directory)).filter (· ≠ "") ++ [name] := by
  rw [steps, Path.filter_segments_join directory hname, Path.endsInSlash_join directory hname]
  simp

section Directory

variable {directory : String} (h : fs.LeadsTo directory loc)

include h

theorem LeadsTo.of_parts {path : String} (hne : path ≠ "") (hnul : '\x00' ∉ path.toList)
    (habsolute : Path.isAbsolute path = Path.isAbsolute directory)
    (hparts : Path.parts path = Path.parts directory) : fs.LeadsTo path loc where
  ne_empty := hne
  no_nul := hnul
  reaches := by
    have hstart : fs.start path = fs.start directory := by rw [start, start, habsolute]
    rw [hstart]
    exact h.reaches.of_filter_eq (by rw [filter_steps, filter_steps, hparts])

/-- A path leads to the same directory in all file systems with the same directories and links. -/
theorem LeadsTo.of_entries (hworking : fs'.workingDirectory = fs.workingDirectory)
    (hentry : ∀ l e, (∀ bytes, e ≠ .file bytes) → fs.entryAt? l = some e →
      fs'.entryAt? l = some e) :
    fs'.LeadsTo directory loc where
  ne_empty := h.ne_empty
  no_nul := h.no_nul
  reaches := by
    have hstart : fs'.start directory = fs.start directory := by rw [start, start, hworking]
    rw [hstart]
    exact h.reaches.of_entries hentry

theorem LeadsTo.exists_parent (hname : IsName name) :
    ∃ parent, Path.parent? (Path.join directory name) = some parent ∧ fs.LeadsTo parent loc := by
  obtain ⟨parent, hparent, hne, hparts, habsolute, hmem⟩ := Path.parent?_join h.ne_empty hname
  refine ⟨parent, hparent, h.of_parts hne (fun hnul => ?_) habsolute hparts⟩
  rcases hmem _ hnul with hnul | hnul
  · exact h.no_nul hnul
  · exact absurd hnul (by decide)

theorem LeadsTo.reaches_stem (name : String) :
    fs.Reaches maxLinks (fs.start (Path.join directory name))
      ((Path.segments (Path.stem directory)).filter (· ≠ "")) loc := by
  have hstart : fs.start (Path.join directory name) = fs.start directory := by
    rw [start, start, Path.isAbsolute_join name h.ne_empty]
  rw [hstart]
  apply h.reaches.of_filter_eq
  rw [filter_filter_leads, filter_steps, ← Path.parts_stem, Path.parts]

variable (hname : IsName name)

include hname

theorem LeadsTo.checkPath_join :
    checkPath (Path.join directory name) =
      if maxPathLength ≤ (Path.join directory name).utf8ByteSize then .error .nameTooLong
      else .ok () := by
  refine checkPath_eq (Path.join_ne_empty name h.ne_empty) (fun hnul => ?_)
  rcases Path.mem_of_mem_join h.ne_empty hnul with hnul | hnul | hnul
  · exact h.no_nul hnul
  · exact absurd hnul (by decide)
  · exact hname.no_nul hnul

/-- A walk to a name behind a directory looks it up there. -/
theorem LeadsTo.exists_walk_join :
    ∃ left, ∀ making, fs.walk making maxLinks (fs.start (Path.join directory name))
        (steps (Path.join directory name)) = fs.walk making left loc [name] := by
  obtain ⟨left, hleft⟩ := (h.reaches_stem name).exists_walk_append
  refine ⟨left, fun making => ?_⟩
  rw [steps_join directory hname]
  exact hleft making [name] (by simp) (by simpa using hname.ne_empty)

/-! ### Operations on a name behind a directory -/

/-- A file is found unless its path is too long. -/
theorem LeadsTo.locate_join (hfits : Fits name) {bytes : ByteArray}
    (hentry : fs.entryAt? (loc ++ [name]) = some (.file bytes)) :
    fs.locate (Path.join directory name) =
      if maxPathLength ≤ (Path.join directory name).utf8ByteSize then .error .nameTooLong
      else .ok (.taken (loc ++ [name]) (.file bytes)) := by
  obtain ⟨left, hwalk⟩ := h.exists_walk_join hname
  rw [locate, h.checkPath_join hname, hwalk, walk_file hname hfits hentry]
  split <;> rfl

theorem LeadsTo.read_join (hfits : Fits name) {bytes : ByteArray}
    (hentry : fs.entryAt? (loc ++ [name]) = some (.file bytes)) :
    fs.read (Path.join directory name) =
      if maxPathLength ≤ (Path.join directory name).utf8ByteSize then .error .nameTooLong
      else .ok bytes := by
  rw [read, h.locate_join hname hfits hentry]
  split <;> rfl

theorem LeadsTo.not_isDirectory_join (hfits : Fits name) {bytes : ByteArray}
    (hentry : fs.entryAt? (loc ++ [name]) = some (.file bytes)) :
    fs.isDirectory (Path.join directory name) = false := by
  rw [isDirectory, h.locate_join hname hfits hentry]
  by_cases hlong : maxPathLength ≤ (Path.join directory name).utf8ByteSize <;> simp [hlong]

/-- A new file is written unless its path or its name is too long. -/
theorem LeadsTo.write_join (hentry : fs.entryAt? (loc ++ [name]) = none) (bytes : ByteArray) :
    fs.write (Path.join directory name) bytes =
      if maxPathLength ≤ (Path.join directory name).utf8ByteSize ∨
          maxNameLength < name.utf8ByteSize then .error .nameTooLong
      else .ok (fs.put (loc ++ [name]) (.file bytes)) := by
  obtain ⟨left, hwalk⟩ := h.exists_walk_join hname
  rw [write, h.checkPath_join hname, hwalk]
  by_cases hpath : maxPathLength ≤ (Path.join directory name).utf8ByteSize
  · rw [if_pos hpath, if_pos (.inl hpath)]
    rfl
  · rw [if_neg hpath]
    by_cases hlong : maxNameLength < name.utf8ByteSize
    · rw [walk_too_long hname hlong, if_pos (.inr hlong)]
      rfl
    · rw [walk_vacant hname hlong hentry, if_neg (not_or.2 ⟨hpath, hlong⟩)]
      rfl

theorem LeadsTo.locateParent_join :
    fs.locateParent (Path.join directory name) =
      if maxPathLength ≤ (Path.join directory name).utf8ByteSize then .error .nameTooLong
      else .ok (loc, some name) := by
  -- a dot at the end leads nowhere, so the walk ends where the directory is
  have hwalk : fs.walk false maxLinks (fs.start (Path.join directory name))
      ((Path.segments (Path.stem directory)).filter (· ≠ "") ++ ["."]) =
        .ok (.taken loc .directory) := by
    refine ((h.reaches_stem name).of_filter_eq ?_).walk_eq
    rw [List.filter_append]
    simp [Path.leads]
  rw [locateParent, h.checkPath_join hname, Path.filter_segments_join directory hname]
  simp only [List.dropLast_concat, hwalk, List.getLast?_concat]
  split
  · rfl
  · simp [bind, Except.bind, pure, Except.pure, hname.ne_dot, hname.ne_dots]

end Directory

end FileSystem

end PageMend.Storage
