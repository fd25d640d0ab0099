import PageMend.Proofs.Page.Save

/-!
# Saving is all or nothing

A page is saved at any path and in any file system, links and missing directories included. Either
all is as it was, or the entry which the path names in its directory has become a file with the
text of the page, and all else is as it was (`rewrite_cases`). What is needed of the temporary name
is that no entry bears it.

The path itself then leads to that file, unless the way to its directory leads through the entry
that was replaced: a link to a directory on the way is then a file, which leads nowhere.
-/

namespace PageMend

open Storage FileSystem

variable {fs fs' : FileSystem} {loc : Location} {name path stamp : String}
  {bytes : ByteArray} {page : Page}

/-! ### Saving a page -/

/-- The name of the temporary file for a page at a path. -/
def temporaryNameOf (stamp path : String) : String :=
  temporaryName stamp ((Path.fileName? path).getD "")

theorem isName_temporaryNameOf (hstamp : IsStamp stamp) (path : String)
    (hnul : '\x00' ∉ (temporaryNameOf stamp path).toList) :
    IsName (temporaryNameOf stamp path) := by
  refine isName_of_temporaryName (fun hslash => ?_) hnul
  rcases mem_temporaryName hslash with hslash | hslash | hslash
  · exact Path.no_slash_fileName? path hslash
  · exact hstamp.no_slash hslash
  · exact absurd hslash (by decide)

/-- A page that is modified is saved in the entry that its path names, or all is as it was. -/
theorem rewrite_cases (hstamp : IsStamp stamp) (hmodified : page.modified = true)
    (hunused : Unused fs (temporaryNameOf stamp page.path)) :
    (∃ error, page.rewrite stamp fs = (fs, .error error)) ∨
      ∃ directory name, fs.NamedIn page.path directory name ∧ Fits name ∧
        Path.endsInSlash page.path = false ∧
        fs.entryAt? (directory ++ [name]) ≠ some .directory ∧
        page.rewrite stamp fs =
          (fs.put (directory ++ [name]) (.file page.serialize.toUTF8), .ok true) := by
  have htemporary : Page.temporaryPath? stamp page.path = (Path.parent? page.path).map
      fun directory => Path.join directory (temporaryNameOf stamp page.path) := rfl
  rw [Page.rewrite, hmodified, htemporary]
  cases hparent : Path.parent? page.path with
  | none => exact .inl ⟨_, rfl⟩
  | some parent =>
    simp only [Option.map_some, Bool.not_true, Bool.false_eq_true, if_false]
    cases hwrite : fs.write (Path.join parent (temporaryNameOf stamp page.path))
        page.serialize.toUTF8 with
    | error error => exact .inl ⟨_, rfl⟩
    | ok written =>
      obtain ⟨loc, hnamed, -, rfl⟩ :=
        exists_put_of_write (isName_temporaryNameOf hstamp page.path) hunused hwrite
      rcases moveFile_cases hnamed (hunused loc) page.serialize.toUTF8 page.path with
        ⟨error, hmove⟩ | ⟨directory, name, hpath, hfits, hslash, hkept, hmove⟩
      · simp only [hmove, removeFile_put hnamed (hunused loc)]
        exact .inl ⟨_, rfl⟩
      · simp only [hmove]
        exact .inr ⟨directory, name, hpath, hfits, hslash, hkept, rfl⟩

/-- The entry that a path names in its directory has become a file with these bytes, and all else
is as it was. -/
structure Saved (fs fs' : FileSystem) (stamp path : String) (bytes : ByteArray)
    (directory : Location) (name : String) : Prop where
  named : fs.locateParent path = .ok (directory, some name)
  /-- What was there before, if anything, was a file or a link. -/
  replaced : fs.entryAt? (directory ++ [name]) ≠ some .directory
  file : fs'.entryAt? (directory ++ [name]) = some (.file bytes)
  other : ∀ l, l ≠ directory ++ [name] → fs'.entryAt? l = fs.entryAt? l
  workingDirectory : fs'.workingDirectory = fs.workingDirectory
  /-- No temporary file is left. -/
  unused : Unused fs' (temporaryNameOf stamp path)
  /-- The path leads to the file, unless the way to its directory leads through it. -/
  found : fs'.locate path = .ok (.taken (directory ++ [name]) (.file bytes)) ↔
    directory ++ [name] ∉ fs.trail maxLinks (fs.start path) (front path)

/-- The temporary file has another name than the page. -/
theorem ne_temporaryNameOf (h : fs.NamedIn path loc name)
    (hslash : Path.endsInSlash path = false) : name ≠ temporaryNameOf stamp path := by
  intro he
  have hlast : ((Path.segments path).filter (· ≠ "")).getLast? = some name := by
    rw [h.parts, List.getLast?_concat]
  have hlength := length_temporaryName stamp name
  rw [temporaryNameOf, Path.fileName?_of_segments h.isName hslash hlast, Option.getD_some] at he
  rw [← he] at hlength
  omega

theorem saved_put (h : fs.NamedIn path loc name) (hfits : Fits name)
    (hslash : Path.endsInSlash path = false)
    (hreplaced : fs.entryAt? (loc ++ [name]) ≠ some .directory)
    (hunused : Unused fs (temporaryNameOf stamp path)) (bytes : ByteArray) :
    Saved fs (fs.put (loc ++ [name]) (.file bytes)) stamp path bytes loc name where
  named := h.locateParent
  replaced := hreplaced
  file := by rw [entryAt?_put (by simp), if_pos rfl]
  other l hl := by rw [entryAt?_put (by simp), if_neg hl]
  workingDirectory := rfl
  unused directory := by
    rw [entryAt?_put (by simp), if_neg, hunused]
    intro he
    obtain ⟨-, hname⟩ := List.append_inj' he rfl
    exact ne_temporaryNameOf h hslash (List.cons.inj hname).1.symm
  found := h.locate_put_iff hfits hslash

/-- Saving is all or nothing: a page that is not modified is left alone; of one that is, the text
becomes the file which its path names, and nothing else changes; or the saving fails, and nothing
changes. -/
theorem rewrite_atomic (page : Page) (hstamp : IsStamp stamp)
    (hunused : Unused fs (temporaryNameOf stamp page.path)) :
    (page.modified = false → page.rewrite stamp fs = (fs, .ok false)) ∧
      (page.modified = true →
        (∃ error, page.rewrite stamp fs = (fs, .error error)) ∨
          ∃ fs' directory name, page.rewrite stamp fs = (fs', .ok true) ∧
            Saved fs fs' stamp page.path page.serialize.toUTF8 directory name) := by
  constructor
  · intro hmodified
    rw [Page.rewrite, hmodified]
    rfl
  · intro hmodified
    refine (rewrite_cases hstamp hmodified hunused).imp_right ?_
    rintro ⟨directory, name, hnamed, hfits, hslash, hreplaced, hrewrite⟩
    exact ⟨_, directory, name, hrewrite, saved_put hnamed hfits hslash hreplaced hunused _⟩

/-! ### A link on the way -/

/-- A directory and a link to it. -/
def linked : FileSystem where
  entries := [(["d"], .directory), (["x"], .link "d")]
  workingDirectory := []

/-- A page without content that is to be saved at a path. -/
def blankAt (path : String) : Page where
  path := path
  source := ""
  tree := .empty
  modified := true

theorem unused_of_getLast? (h : ∀ p ∈ fs.entries, p.1.getLast? ≠ some name) : Unused fs name := by
  intro directory
  rw [entryAt?_append, List.lookup_eq_none_iff]
  intro p hp
  have hne : directory ++ [name] ≠ p.1 := by
    intro he
    exact h p hp (by rw [← he, List.getLast?_concat])
  simpa using hne

/-- A link is replaced, not followed. -/
theorem rewrite_atomic_link :
    ∃ fs' directory name, (blankAt "x").rewrite "0" linked = (fs', .ok true) ∧
      Saved linked fs' "0" "x" (blankAt "x").serialize.toUTF8 directory name := by
  have hname : IsName "x" := by decide
  have htemporary : IsName ".x.0.tmp" := by decide
  have hnew : linked.NamedIn ".x.0.tmp" [] ".x.0.tmp" :=
    ⟨by decide +kernel, htemporary, by decide +kernel, .done⟩
  have hnamed : linked.NamedIn "x" [] "x" := ⟨by decide +kernel, hname, by decide +kernel, .done⟩
  have hmodified : (blankAt "x").modified = true := rfl
  have hrewrite := rewrite_of_namedIn "0" hmodified
    (by decide +kernel) hnew rfl (by decide +kernel) hnamed (by decide +kernel) (by decide +kernel)
    ⟨by decide +kernel, by decide +kernel⟩
  have hunused : Unused linked (temporaryNameOf "0" "x") :=
    unused_of_getLast? (by decide +kernel)
  rcases (rewrite_atomic (blankAt "x") ⟨by decide, by decide⟩ hunused).2 rfl with
    ⟨error, herror⟩ | hsaved
  · rw [hrewrite] at herror
    cases (Prod.mk.inj herror).2
  · exact hsaved

/-- Through the link and back again, the link is saved as a page, and the path leads nowhere. -/
theorem rewrite_through_link :
    ∃ fs', (blankAt "x/../x").rewrite "0" linked = (fs', .ok true) ∧
      (∀ loc bytes, fs'.locate "x/../x" ≠ .ok (.taken loc (.file bytes))) ∧
      fs'.entryAt? ["x"] = some (.file (blankAt "x/../x").serialize.toUTF8) := by
  have hname : IsName "x" := by decide
  have htemporary : IsName ".x.0.tmp" := by decide
  have hx : IsLookedUp "x" := isLookedUp hname (by decide +kernel)
  have hd : IsLookedUp "d" := isLookedUp (by decide) (by decide +kernel)
  have hback : linked.Reaches maxLinks [] ["x", ".."] [] :=
    .follow hx rfl (.enter hd rfl (.up .done))
  have hnew : linked.NamedIn "x/../.x.0.tmp" [] ".x.0.tmp" :=
    ⟨by decide +kernel, htemporary, by decide +kernel, hback⟩
  have hnamed : linked.NamedIn "x/../x" [] "x" :=
    ⟨by decide +kernel, hname, by decide +kernel, hback⟩
  have hmodified : (blankAt "x/../x").modified = true := rfl
  have hrewrite := rewrite_of_namedIn "0" hmodified
    (by decide +kernel) hnew rfl (by decide +kernel) hnamed (by decide +kernel) (by decide +kernel)
    ⟨by decide +kernel, by decide +kernel⟩
  -- the walk meets the link first, and then it is a file
  have hmem : ["x"] ∈ linked.trail maxLinks (linked.start "x/../x") (front "x/../x") := by
    have hfront : front "x/../x" = ["x", ".."] := by decide +kernel
    rw [hfront]
    show ["x"] ∈ linked.trail (39 + 1) [] ["x", ".."]
    rw [trail_follow hx rfl]
    exact List.mem_cons_self
  obtain ⟨error, herror⟩ := hnamed.exists_error_locate_put (blankAt "x/../x").serialize.toUTF8
    (by decide +kernel) (by simp) hmem
  refine ⟨_, hrewrite, fun loc bytes hfound => ?_, rfl⟩
  exact nomatch herror.symm.trans hfound

end PageMend
