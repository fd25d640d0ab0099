import PageMend.Proofs.Storage.Trail

/-!
# New files, and moving them

A file that is made at a path which names a free entry (`write_of_namedIn`) changes no path to a
directory (`reaches_put_iff`). When it is moved to where another path names an entry, it replaces
that entry, and all else is as it was before the file was made (`moveFile_put`).

Conversely, what is written under a name that no entry bears is made in the directory to which the
path leads (`exists_put_of_write`), and moving it replaces an entry or changes nothing
(`moveFile_cases`).
-/

namespace PageMend.Storage

namespace FileSystem

variable {fs written : FileSystem} {loc l directory : Location} {e : Entry}
  {parent name path temporary : String} {bytes : ByteArray}

/-! ### A new file -/

/-- What was put at a free location and taken away again has left nothing. -/
theorem drop_put (hl : l ≠ []) (hfree : fs.entryAt? l = none) : (fs.put l e).drop l = fs := by
  have hkeys : ∀ p ∈ fs.entries, p.1 ≠ l := by
    rw [entryAt?, if_neg hl, List.lookup_eq_none_iff] at hfree
    intro p hp he
    simpa [he] using hfree p hp
  have hentries : ((l, e) :: fs.entries.filter (·.1 ≠ l)).filter (·.1 ≠ l) = fs.entries := by
    rw [List.filter_cons_of_neg (by simp), List.filter_filter, List.filter_eq_self]
    intro p hp
    simpa using hkeys p hp
  rw [FileSystem.put, FileSystem.drop]
  simp only [hentries]

/-- A new file changes no path to a directory, and makes none. -/
theorem reaches_put_iff {links : Nat} {here : Location} {xs : List String}
    (hfree : fs.entryAt? l = none) :
    (fs.put l (.file bytes)).Reaches links here xs loc ↔ fs.Reaches links here xs loc := by
  have hl : l ≠ [] := by
    rintro rfl
    cases hfree
  constructor
  · intro h
    refine h.of_entries fun k e hfile hk => ?_
    rw [entryAt?_put hl] at hk
    split at hk
    · exact absurd (Option.some.inj hk).symm (hfile bytes)
    · exact hk
  · intro h
    refine h.of_entries fun k e _ hk => ?_
    rw [entryAt?_put hl, if_neg, hk]
    rintro rfl
    rw [hfree] at hk
    cases hk

theorem namedIn_put_iff (hfree : fs.entryAt? l = none) (bytes : ByteArray) :
    (fs.put l (.file bytes)).NamedIn path loc name ↔ fs.NamedIn path loc name :=
  ⟨fun h => ⟨h.check, h.isName, h.parts, (reaches_put_iff hfree).1 h.reaches⟩,
    fun h => ⟨h.check, h.isName, h.parts, (reaches_put_iff hfree).2 h.reaches⟩⟩

/-- No entry bears the name. -/
def Unused (fs : FileSystem) (name : String) : Prop :=
  ∀ directory, fs.entryAt? (directory ++ [name]) = none

/-- A file that is written under a name that no entry bears is made in the directory. -/
theorem exists_put_of_write (hname : '\x00' ∉ name.toList → IsName name)
    (hunused : Unused fs name)
    (h : fs.write (Path.join parent name) bytes = .ok written) :
    ∃ loc, fs.NamedIn (Path.join parent name) loc name ∧ Fits name ∧
      written = fs.put (loc ++ [name]) (.file bytes) := by
  cases hcheck : checkPath (Path.join parent name) with
  | error error =>
    simp only [FileSystem.write, hcheck, bind, Except.bind] at h
    cases h
  | ok =>
    have hname : IsName name := hname fun hnul =>
      no_nul_of_checkPath hcheck (Path.mem_join hnul)
    simp only [FileSystem.write, hcheck, steps_join parent hname, bind, Except.bind] at h
    have hfront : front (Path.join parent name) =
        (Path.segments (Path.stem parent)).filter (· ≠ "") := by
      rw [front, Path.filter_segments_join parent hname, List.dropLast_concat]
    rcases fs.reaches_or_error maxLinks (fs.start (Path.join parent name))
      ((Path.segments (Path.stem parent)).filter (· ≠ "")) with ⟨loc, hreaches⟩ | herror
    · obtain ⟨left, hleft⟩ := hreaches.exists_walk_append
      rw [hleft true [name] (by simp) (by simpa using hname.ne_empty)] at h
      by_cases hfits : Fits name
      · rw [walk_vacant hname hfits (hunused loc)] at h
        refine ⟨loc, ⟨hcheck, hname, ?_, hfront ▸ hreaches⟩, hfits, (Except.ok.inj h).symm⟩
        rw [hfront, Path.filter_segments_join parent hname]
      · rw [walk_too_long hname (not_not.1 hfits)] at h
        cases h
    · obtain ⟨error, hwalk⟩ := herror true [name] (by simp)
      rw [hwalk] at h
      cases h

/-- A new file is made where a path names a free entry. -/
theorem write_of_namedIn (h : fs.NamedIn path loc name) (hfits : Fits name)
    (hslash : Path.endsInSlash path = false) (hfree : fs.entryAt? (loc ++ [name]) = none)
    (bytes : ByteArray) : fs.write path bytes = .ok (fs.put (loc ++ [name]) (.file bytes)) := by
  obtain ⟨left, hleft⟩ := h.reaches.exists_walk_append
  have hwalk : fs.walk true maxLinks (fs.start path) (steps path) = .ok (.vacant loc name) := by
    rw [h.steps_eq hslash, hleft true [name] (by simp) (by simpa using h.isName.ne_empty)]
    exact walk_vacant h.isName hfits hfree
  rw [FileSystem.write, h.check, hwalk]
  rfl

section Move

variable (h : fs.NamedIn path loc temporary) (hfree : fs.entryAt? (loc ++ [temporary]) = none)

include h hfree

/-- Taking a new file away again leaves nothing of it. -/
theorem removeFile_put (bytes : ByteArray) :
    (fs.put (loc ++ [temporary]) (.file bytes)).removeFile path = fs := by
  have hfile : (fs.put (loc ++ [temporary]) (.file bytes)).entryAt? (loc ++ [temporary]) ≠
      some .directory := by
    rw [entryAt?_put (by simp), if_pos rfl]
    simp
  rw [removeFile, ((namedIn_put_iff hfree bytes).2 h).locateParent]
  simp only [if_neg hfile]
  exact drop_put (by simp) hfree

/-- Moving a new file to where a path names an entry. -/
theorem moveFile_put (bytes : ByteArray) {target : String}
    (htarget : fs.NamedIn target directory name) :
    (fs.put (loc ++ [temporary]) (.file bytes)).moveFile path target =
      if ¬Fits temporary ∨ ¬Fits name then .error .nameTooLong
      else if Path.endsInSlash target then .error .notDirectory
      else if fs.entryAt? (directory ++ [name]) = some .directory then .error .isDirectory
      else .ok (fs.put (directory ++ [name]) (.file bytes)) := by
  have horigin := ((namedIn_put_iff hfree bytes).2 h).locateParent
  have hgoal := ((namedIn_put_iff hfree bytes).2 htarget).locateParent
  have hentry : (fs.put (loc ++ [temporary]) (.file bytes)).entryAt? (loc ++ [temporary]) =
      some (.file bytes) := by
    rw [entryAt?_put (by simp), if_pos rfl]
  -- the new file is no directory, so the target is one if it was one before
  have hdirectory : (fs.put (loc ++ [temporary]) (.file bytes)).entryAt? (directory ++ [name]) =
      some .directory ↔ fs.entryAt? (directory ++ [name]) = some .directory := by
    rw [entryAt?_put (by simp)]
    split
    · rename_i hsame
      rw [hsame, hfree]
      exact ⟨nofun, nofun⟩
    · rfl
  have hlong : (maxNameLength < temporary.utf8ByteSize ∨ maxNameLength < name.utf8ByteSize) ↔
      ¬Fits temporary ∨ ¬Fits name := by
    rw [Fits, Fits, not_not, not_not]
  simp only [moveFile, horigin, hgoal, hentry, hdirectory, hlong, drop_put (by simp) hfree, bind,
    Except.bind]
  rfl

/-- Moving a new file replaces what the path names, or changes nothing. -/
theorem moveFile_cases (bytes : ByteArray) (target : String) :
    (∃ error, (fs.put (loc ++ [temporary]) (.file bytes)).moveFile path target = .error error) ∨
      ∃ directory name, fs.NamedIn target directory name ∧ Fits name ∧
        Path.endsInSlash target = false ∧ fs.entryAt? (directory ++ [name]) ≠ some .directory ∧
        (fs.put (loc ++ [temporary]) (.file bytes)).moveFile path target =
          .ok (fs.put (directory ++ [name]) (.file bytes)) := by
  have horigin := ((namedIn_put_iff hfree bytes).2 h).locateParent
  cases htarget : (fs.put (loc ++ [temporary]) (.file bytes)).locateParent target with
  | error error =>
    refine .inl ⟨error, ?_⟩
    simp only [moveFile, horigin, htarget, bind, Except.bind]
  | ok place =>
    obtain ⟨directory, _ | name⟩ := place
    · refine .inl ⟨.busy, ?_⟩
      simp only [moveFile, horigin, htarget, bind, Except.bind]
    · have hnamed := (namedIn_put_iff hfree bytes).1 (NamedIn.of_locateParent htarget)
      rw [moveFile_put h hfree bytes hnamed]
      by_cases hlong : ¬Fits temporary ∨ ¬Fits name
      · rw [if_pos hlong]
        exact .inl ⟨_, rfl⟩
      rw [if_neg hlong]
      by_cases hslash : Path.endsInSlash target = true
      · rw [if_pos hslash]
        exact .inl ⟨_, rfl⟩
      rw [if_neg hslash]
      by_cases hdirectory : fs.entryAt? (directory ++ [name]) = some .directory
      · rw [if_pos hdirectory]
        exact .inl ⟨_, rfl⟩
      · rw [if_neg hdirectory]
        exact .inr ⟨directory, name, hnamed, not_not.1 (not_or.1 hlong).2, by simpa using hslash,
          hdirectory, rfl⟩

end Move

end FileSystem

end PageMend.Storage
