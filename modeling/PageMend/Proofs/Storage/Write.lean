import PageMend.Proofs.Storage.Trail

/-!
# Where a file is written

Writing follows all links and ends at one location, where there was a file or nothing. All other
entries are as they were, and the path then leads to the file that was written (`exists_of_write`).
-/

namespace PageMend.Storage

namespace FileSystem

variable {fs fs' : FileSystem} {making : Bool} {links : Nat} {here l : Location} {path : String}
  {xs : List String} {bytes : ByteArray} {place : Place}

/-- A walk ends at a location: at a file that is there, or where nothing is. -/
inductive EndsAt (fs : FileSystem) (l : Location) : Place → Prop
  | file {before : ByteArray} (hentry : fs.entryAt? l = some (.file before)) :
      EndsAt fs l (.taken l (.file before))
  | vacant {directory : Location} {name : String} (hl : l = directory ++ [name])
      (hentry : fs.entryAt? l = none) : EndsAt fs l (.vacant directory name)

/-- No directory and no link is where a walk ends. -/
theorem EndsAt.ne (h : fs.EndsAt l place) {k : Location} {e : Entry} (hk : fs.entryAt? k = some e)
    (hfile : ∀ bytes, e ≠ .file bytes) : k ≠ l := by
  rintro rfl
  cases h with
  | file hentry => exact hfile _ (Option.some.inj (hk.symm.trans hentry))
  | vacant _ hentry => exact nomatch hk.symm.trans hentry

/-- A walk that does not end in a directory ends at a location, and leads to the file that is put
there. -/
theorem exists_endsAt (h : fs.walk making links here xs = .ok place)
    (hplace : ∀ loc, place ≠ .taken loc .directory) (bytes : ByteArray) :
    ∃ l, l ≠ [] ∧ fs.EndsAt l place ∧
      (fs.put l (.file bytes)).walk false links here xs = .ok (.taken l (.file bytes)) := by
  fun_induction walk fs making links here xs with
  | case1 links here =>
    cases h
    exact absurd rfl (hplace here)
  | case2 links here name rest hname ih =>
    obtain ⟨l, hl, hends, hwalk⟩ := ih h
    exact ⟨l, hl, hends, (walk_skip hname).trans hwalk⟩
  | case3 links here rest _ ih =>
    obtain ⟨l, hl, hends, hwalk⟩ := ih h
    exact ⟨l, hl, hends, walk_up.trans hwalk⟩
  | case6 links here name hleads hdots hshort hentry =>
    cases h
    refine ⟨here ++ [name], by simp, .vacant rfl hentry, ?_⟩
    rw [walk_lookUp ⟨hleads, hdots, hshort⟩, entryAt?_put (by simp)]
    simp
  | case9 links here name hleads hdots hshort before hentry =>
    cases h
    refine ⟨here ++ [name], by simp, .file hentry, ?_⟩
    rw [walk_lookUp ⟨hleads, hdots, hshort⟩, entryAt?_put (by simp)]
    simp
  | case8 links here name rest hleads hdots _ hshort hentry ih =>
    obtain ⟨l, hl, hends, hwalk⟩ := ih h
    refine ⟨l, hl, hends, ?_⟩
    have hkept : (fs.put l (.file bytes)).entryAt? (here ++ [name]) = some .directory := by
      rw [entryAt?_put hl, if_neg (hends.ne hentry (by simp)), hentry]
    exact (walk_enter ⟨hleads, hdots, hshort⟩ (by simp) hkept).trans hwalk
  | case12 here name rest hleads hdots _ hshort target hentry links ih =>
    simp only [dite_eq_ite] at ih
    obtain ⟨l, hl, hends, hwalk⟩ := ih h
    refine ⟨l, hl, hends, ?_⟩
    have hkept : (fs.put l (.file bytes)).entryAt? (here ++ [name]) = some (.link target) := by
      rw [entryAt?_put hl, if_neg (hends.ne hentry (by simp)), hentry]
    exact (walk_follow ⟨hleads, hdots, hshort⟩ (by simp) hkept).trans hwalk
  -- all other walks are refused
  | _ => cases h

/-- A file that is written changes one entry, to which its path then leads. -/
theorem exists_of_write (h : fs.write path bytes = .ok fs') :
    ∃ l, l ≠ [] ∧ fs' = fs.put l (.file bytes) ∧
      fs'.locate path = .ok (.taken l (.file bytes)) := by
  cases hcheck : checkPath path with
  | error error =>
    simp only [FileSystem.write, hcheck, bind, Except.bind] at h
    cases h
  | ok =>
    cases hwalk : fs.walk true maxLinks (fs.start path) (steps path) with
    | error error =>
      simp only [FileSystem.write, hcheck, hwalk, bind, Except.bind] at h
      cases h
    | ok place =>
      have hplace : ∀ loc, place ≠ .taken loc .directory := by
        rintro loc rfl
        simp only [FileSystem.write, hcheck, hwalk, bind, Except.bind] at h
        cases h
      obtain ⟨l, hl, hends, hfound⟩ := exists_endsAt hwalk hplace bytes
      have hput : fs' = fs.put l (.file bytes) := by
        simp only [FileSystem.write, hcheck, hwalk, bind, Except.bind] at h
        cases hends with
        | file hentry => exact (Except.ok.inj h).symm
        | vacant hl hentry =>
          subst hl
          exact (Except.ok.inj h).symm
      refine ⟨l, hl, hput, ?_⟩
      rw [hput, locate, hcheck]
      exact hfound

/-- A file that was written is read under its path. -/
theorem read_of_write (h : fs.write path bytes = .ok fs') : fs'.read path = .ok bytes := by
  obtain ⟨l, -, -, hlocate⟩ := exists_of_write h
  rw [read, hlocate]
  rfl

/-- A new file is made under its name in the working directory. -/
theorem write_of_vacant {name : String} (hname : IsName name) (hfits : Fits name)
    (hentry : fs.entryAt? (fs.workingDirectory ++ [name]) = none) (bytes : ByteArray) :
    fs.write name bytes = .ok (fs.put (fs.workingDirectory ++ [name]) (.file bytes)) := by
  have hslash : Path.endsInSlash name = false := by
    rw [← String.empty_append (s := name)]
    exact Path.endsInSlash_name hname ""
  have hsteps : steps name = [name] := by
    rw [steps, Path.segments_of_no_slash hname.no_slash, if_neg (Bool.eq_false_iff.1 hslash)]
    simp [hname.ne_empty]
  have hstart : fs.start name = fs.workingDirectory := by
    have habsolute : Path.isAbsolute name = false := by
      rw [Path.isAbsolute, beq_eq_false_iff_ne]
      exact fun he => hname.no_slash (List.mem_of_mem_head? he)
    rw [start, habsolute]
    rfl
  have hcheck : checkPath name = .ok () := by
    have hshort : ¬maxPathLength ≤ name.utf8ByteSize := by
      have := Nat.le_of_not_lt hfits
      unfold maxNameLength maxPathLength at *
      omega
    rw [checkPath_eq hname.ne_empty hname.no_nul, if_neg hshort]
  rw [write, hcheck, hsteps, hstart]
  simp only [walk_vacant hname hfits hentry, bind, Except.bind]
  rfl

end FileSystem

end PageMend.Storage
