import PageMend.Page.Load
import PageMend.Page.Rewrite
import PageMend.Proofs.Storage.Move

/-!
# Loading and saving one page

Where a file lies behind a directory, what it is loaded as is a matter of its path and its bytes
(`load_join`), and whether it can be saved is a matter of its path alone (`saveFault?`). A page
that can be saved replaces its file and changes no other entry (`exists_rewrite`).
-/

namespace PageMend

open Storage FileSystem

variable {fs fs' : FileSystem} {loc : Location} {directory name stamp : String}
  {bytes : ByteArray}

/-! ### Loading -/

/-- The page that bytes at a path are read as. -/
def Loader.pageOf (loader : Loader) (path : String) (bytes : ByteArray) :
    Except LoadError Page := do
  let source ← (Text.Utf8.decode bytes).mapError LoadError.encoding
  let tree ← (loader.reader.read source).mapError LoadError.malformed
  return { path, source, tree }

theorem path_of_pageOf {loader : Loader} {path : String} {page : Page}
    (h : loader.pageOf path bytes = .ok page) : page.path = path := by
  rw [Loader.pageOf] at h
  cases hsource : Text.Utf8.decode bytes with
  | error fault => simp [hsource, Except.mapError, bind, Except.bind] at h
  | ok source =>
    cases htree : loader.reader.read source with
    | error fault => simp [hsource, htree, Except.mapError, bind, Except.bind] at h
    | ok tree =>
      obtain rfl : ⟨path, source, tree, false⟩ = page := by
        simpa [hsource, htree, Except.mapError, bind, Except.bind, pure, Except.pure] using h
      rfl

theorem load_join (loader : Loader) (h : fs.LeadsTo directory loc) (hname : IsName name)
    (hfits : Fits name) (hentry : fs.entryAt? (loc ++ [name]) = some (.file bytes)) :
    loader.load fs (Path.join directory name) =
      if maxPathLength ≤ (Path.join directory name).utf8ByteSize then
        .error (.io .nameTooLong)
      else loader.pageOf (Path.join directory name) bytes := by
  rw [Loader.load, h.read_join hname hfits hentry]
  split <;> rfl

/-! ### Temporary names -/

/-- The name of the temporary file for a page. -/
def temporaryName (stamp name : String) : String := "." ++ name ++ "." ++ stamp ++ ".tmp"

/-- A stamp that can be a part of a name. -/
structure IsStamp (stamp : String) : Prop where
  no_slash : '/' ∉ stamp.toList
  no_nul : '\x00' ∉ stamp.toList

theorem toList_temporaryName (stamp name : String) :
    (temporaryName stamp name).toList =
      '.' :: (name.toList ++ '.' :: (stamp.toList ++ ['.', 't', 'm', 'p'])) := by
  simp [temporaryName]

theorem length_temporaryName (stamp name : String) :
    (temporaryName stamp name).toList.length = name.toList.length + stamp.toList.length + 6 := by
  rw [toList_temporaryName]
  simp only [List.length_cons, List.length_append, List.length_nil]
  omega

theorem mem_temporaryName {c : Char} (h : c ∈ (temporaryName stamp name).toList) :
    c ∈ name.toList ∨ c ∈ stamp.toList ∨ c ∈ ['.', 't', 'm', 'p'] := by
  rw [toList_temporaryName] at h
  simp only [List.mem_cons, List.mem_append] at h ⊢
  tauto

/-- A temporary name is one that an entry can have if its characters are. -/
theorem isName_of_temporaryName (hslash : '/' ∉ (temporaryName stamp name).toList)
    (hnul : '\x00' ∉ (temporaryName stamp name).toList) : IsName (temporaryName stamp name) := by
  -- shorter texts are told apart by their length
  have hlonger : ∀ {text : String}, text.toList.length < 6 → temporaryName stamp name ≠ text := by
    rintro text hshort rfl
    have hlength := length_temporaryName stamp name
    omega
  exact {
    ne_empty := hlonger (by decide)
    ne_dot := hlonger (by decide)
    ne_dots := hlonger (by decide)
    no_slash := hslash
    no_nul := hnul }

theorem isName_temporaryName (hstamp : IsStamp stamp) (hname : IsName name) :
    IsName (temporaryName stamp name) := by
  refine isName_of_temporaryName (fun hmem => ?_) (fun hmem => ?_)
  · rcases mem_temporaryName hmem with hmem | hmem | hmem
    · exact hname.no_slash hmem
    · exact hstamp.no_slash hmem
    · exact absurd hmem (by decide)
  · rcases mem_temporaryName hmem with hmem | hmem | hmem
    · exact hname.no_nul hmem
    · exact hstamp.no_nul hmem
    · exact absurd hmem (by decide)

/-! ### Saving -/

/-- What keeps a page of that name from being saved, if anything does. -/
def saveFault? (stamp directory name : String) : Option RewriteError :=
  match Page.temporaryPath? stamp (Path.join directory name) with
  | none => some (.noParent (Path.join directory name))
  | some temporary =>
    if maxPathLength ≤ temporary.utf8ByteSize ∨
        maxNameLength < (temporaryName stamp name).utf8ByteSize then
      some (.temporaryFile temporary .nameTooLong)
    else none

/-- The file at a location has these bytes, and all else is as it was. -/
structure Replaced (fs fs' : FileSystem) (loc : Location) (bytes : ByteArray) : Prop where
  entryAt : ∀ l, fs'.entryAt? l = if l = loc then some (.file bytes) else fs.entryAt? l
  wellFormed : fs.WellFormed → fs'.WellFormed
  workingDirectory : fs'.workingDirectory = fs.workingDirectory

theorem Replaced.refl (h : fs.entryAt? loc = some (.file bytes)) : Replaced fs fs loc bytes where
  entryAt l := by
    split
    · rename_i hl
      rw [hl, h]
    · rfl
  wellFormed := id
  workingDirectory := rfl

/-- Where a file is replaced the same directories are reached. -/
theorem Replaced.leadsTo {l : Location} {before : ByteArray} (h : Replaced fs fs' l bytes)
    (hentry : fs.entryAt? l = some (.file before)) (hdirectory : fs.LeadsTo directory loc) :
    fs'.LeadsTo directory loc := by
  apply hdirectory.of_entries h.workingDirectory
  intro k e hfile hk
  rw [h.entryAt, if_neg, hk]
  rintro rfl
  rw [hentry] at hk
  exact hfile before (Option.some.inj hk).symm

theorem replaced_put {before : ByteArray} (hloc : loc ≠ [])
    (hentry : fs.entryAt? loc = some (.file before)) :
    Replaced fs (fs.put loc (.file bytes)) loc bytes where
  entryAt _ := entryAt?_put hloc
  wellFormed hfs := hfs.put (hfs.names_of_entryAt? hentry) _
  workingDirectory := rfl

/-- A page is saved where its temporary file can be made and its path names no directory. -/
theorem rewrite_of_namedIn {page : Page} {path temporary : String} {place : Location}
    (stamp : String) (hmodified : page.modified = true)
    (htemporary : Page.temporaryPath? stamp page.path = some path)
    (hnew : fs.NamedIn path loc temporary)
    (hfree : fs.entryAt? (loc ++ [temporary]) = none) (hnewSlash : Path.endsInSlash path = false)
    (hnamed : fs.NamedIn page.path place name)
    (hslash : Path.endsInSlash page.path = false)
    (hkept : fs.entryAt? (place ++ [name]) ≠ some .directory)
    (hfits : Fits temporary ∧ Fits name) :
    page.rewrite stamp fs =
      (fs.put (place ++ [name]) (.file page.serialize.toUTF8), .ok true) := by
  have hwrite := write_of_namedIn hnew hfits.1 hnewSlash hfree page.serialize.toUTF8
  have hmove := moveFile_put hnew hfree page.serialize.toUTF8 hnamed
  rw [if_neg (not_or.2 ⟨not_not.2 hfits.1, not_not.2 hfits.2⟩), if_neg (by simp [hslash]),
    if_neg hkept] at hmove
  simp only [Page.rewrite, hmodified, htemporary, hwrite, hmove]
  rfl

section Rewrite

variable (h : fs.LeadsTo directory loc) (hname : IsName name)

include h hname

theorem exists_temporaryPath (stamp : String) :
    ∃ parent, fs.LeadsTo parent loc ∧
      Page.temporaryPath? stamp (Path.join directory name) =
        some (Path.join parent (temporaryName stamp name)) := by
  obtain ⟨parent, hparent, hleads⟩ := h.exists_parent hname
  refine ⟨parent, hleads, ?_⟩
  rw [Page.temporaryPath?, hparent, Path.fileName?_join h.ne_empty hname]
  rfl

variable {page : Page} (hstamp : IsStamp stamp) (hpath : page.path = Path.join directory name)
  (hmodified : page.modified = true)
  (hfresh : fs.entryAt? (loc ++ [temporaryName stamp name]) = none)

include hstamp hpath hmodified hfresh

/-- Where a page cannot be saved nothing is changed. -/
theorem rewrite_of_fault {error : RewriteError}
    (hfault : saveFault? stamp directory name = some error) :
    page.rewrite stamp fs = (fs, .error error) := by
  obtain ⟨parent, hleads, htemporary⟩ := exists_temporaryPath h hname stamp
  have hwrite := hleads.write_join (isName_temporaryName hstamp hname) hfresh page.serialize.toUTF8
  simp only [saveFault?, htemporary, Option.ite_none_right_eq_some, Option.some.injEq] at hfault
  obtain ⟨hlong, rfl⟩ := hfault
  rw [if_pos hlong] at hwrite
  simp only [Page.rewrite, hmodified, hpath, htemporary, hwrite]
  rfl

/-- Where a page can be saved its text replaces what was there, be it a file or a link. -/
theorem rewrite_join (hfits : Fits name)
    (hshort : (Path.join directory name).utf8ByteSize < maxPathLength)
    (hkept : fs.entryAt? (loc ++ [name]) ≠ some .directory)
    (hfault : saveFault? stamp directory name = none) :
    page.rewrite stamp fs =
      (fs.put (loc ++ [name]) (.file page.serialize.toUTF8), .ok true) := by
  obtain ⟨parent, hleads, htemporary⟩ := exists_temporaryPath h hname stamp
  have htname := isName_temporaryName hstamp hname
  obtain ⟨hshort', hfits'⟩ : (Path.join parent (temporaryName stamp name)).utf8ByteSize <
      maxPathLength ∧ Fits (temporaryName stamp name) := by
    simpa [saveFault?, htemporary, Fits] using hfault
  exact rewrite_of_namedIn stamp hmodified (hpath ▸ htemporary) (hleads.namedIn_join htname hshort')
    hfresh (Path.endsInSlash_join parent htname) (hpath.symm ▸ h.namedIn_join hname hshort)
    (hpath.symm ▸ Path.endsInSlash_join directory hname) hkept ⟨hfits', hfits⟩

/-- Where a page can be saved its text replaces the file. -/
theorem exists_rewrite {before : ByteArray} (hfits : Fits name)
    (hshort : (Path.join directory name).utf8ByteSize < maxPathLength)
    (hentry : fs.entryAt? (loc ++ [name]) = some (.file before))
    (hfault : saveFault? stamp directory name = none) :
    ∃ fs', page.rewrite stamp fs = (fs', .ok true) ∧
      Replaced fs fs' (loc ++ [name]) page.serialize.toUTF8 := by
  have hkept : fs.entryAt? (loc ++ [name]) ≠ some .directory := by simp [hentry]
  exact ⟨_, rewrite_join h hname hstamp hpath hmodified hfresh hfits hshort hkept hfault,
    replaced_put (by simp) hentry⟩

end Rewrite

end PageMend
