import PageMend.Proofs.Batch.Accounting
import PageMend.Proofs.Storage.Child
import PageMend.Proofs.Text.Bytes

/-!
# Which files are pages

The pages of a directory are its entries that have the extension and are not seen as directories,
each once, in the order of the bytes of their names (`candidates_exact`). Nothing that lies deeper
is a page, and the order in which the directory is listed does not matter. A folder is seen as one
unless its path is too long or has too many links; then it is taken for a page
(`candidates_long_path`).

The extension of a name has no dot. A configuration with a dot inside its extension is accepted all
the same, and no file at all is a page (`mem_candidates_iff`, `candidates_two_dots`).
-/

namespace PageMend

open Storage FileSystem

/-- An accepted extension does not start with a dot. -/
theorem Config.dot_mem_extension_iff {config : Config} (h : config.check = .ok ()) :
    '.' ∈ config.extension.toList ↔ '.' ∈ config.extension.toList.tail := by
  have hfit : config.extension ≠ "" ∧ config.extension.toList.head? ≠ some '.' := by
    unfold Config.check at h
    dsimp only at h
    split at h
    · cases h
    · rename_i hfit
      simpa using hfit
  obtain ⟨hne, hhead⟩ := hfit
  obtain ⟨c, cs, hcs⟩ := List.exists_cons_of_ne_nil (l := config.extension.toList)
    (by simpa using hne)
  have hc : '.' ≠ c := fun he => hhead (by rw [hcs, he]; rfl)
  rw [hcs, List.tail_cons, List.mem_cons, or_iff_right hc]

namespace Batch

variable {config : Config} {directory name : String} {fs fs' : FileSystem} {loc : Location}

/-! ### Membership and order -/

/-- An entry is a page if it has the extension and is not seen as a directory. -/
theorem mem_pageNames_iff (hfs : fs.WellFormed) (hdirectory : fs.LeadsTo directory loc) :
    name ∈ pageNames config fs directory loc ↔
      fs.entryAt? (loc ++ [name]) ≠ none ∧ ¬fs.FindsFolder directory loc name ∧
        Path.HasExtension name config.extension := by
  rw [mem_pageNames, ← mem_names]
  refine and_congr_right fun hname => ?_
  rw [isCandidate, Bool.and_eq_true, Bool.not_eq_true', decide_eq_true_iff,
    Path.extensionOfName?_eq_some_iff, ← hdirectory.isDirectory_join_iff (hfs.isName hname).1,
    Bool.not_eq_true]

theorem pairwise_pageNames : (pageNames config fs directory loc).Pairwise (· ≤ ·) := by
  have htrans : ∀ a b c : String, decide (a ≤ b) = true → decide (b ≤ c) = true →
      decide (a ≤ c) = true := fun a b c hab hbc =>
    decide_eq_true (String.le_trans (of_decide_eq_true hab) (of_decide_eq_true hbc))
  have htotal : ∀ a b : String, (decide (a ≤ b) || decide (b ≤ a)) = true := fun a b => by
    simpa using String.le_total a b
  exact (List.pairwise_mergeSort htrans htotal _).imp of_decide_eq_true

/-- The pages are listed in the order of the bytes of their names. -/
theorem ascending_pageNames (hfs : fs.WellFormed) :
    (pageNames config fs directory loc).Pairwise fun a b => Text.bytes a < Text.bytes b := by
  refine (pairwise_pageNames.and (nodup_pageNames hfs)).imp fun ⟨hle, hne⟩ => ?_
  exact Text.bytes_lt_iff.2 (String.not_le.1 fun hge => hne (String.le_antisymm hle hge))

theorem pageNames_reordered (h : Reordered fs fs') (hfs : fs.WellFormed) (config : Config)
    (directory : String) (loc : Location) :
    pageNames config fs' directory loc = pageNames config fs directory loc := by
  have hcandidate : isCandidate config fs' directory = isCandidate config fs directory := by
    funext name
    rw [isCandidate, isCandidate, h.isDirectory hfs]
  have hperm : (pageNames config fs' directory loc).Perm
      (pageNames config fs directory loc) := by
    rw [pageNames, pageNames, hcandidate]
    exact (List.mergeSort_perm _ _).trans (((h.names loc).filter _).trans
      (List.mergeSort_perm _ _).symm)
  exact hperm.eq_of_pairwise (fun a b _ _ => String.le_antisymm) pairwise_pageNames
    pairwise_pageNames

/-- The pages of a directory are the same in whatever order it is listed. -/
theorem candidates_reordered (h : Reordered fs fs') (hfs : fs.WellFormed) (config : Config)
    (directory : String) : candidates config fs' directory = candidates config fs directory := by
  have hlocate : fs'.locate directory = fs.locate directory := (h.agree hfs directory).locate
  simp only [candidates, hlocate]
  split
  · rename_i loc _
    exact congrArg (fun names => Except.ok (names.map (Path.join directory)))
      (pageNames_reordered h hfs config directory loc)
  · rfl

/-- The pages of a directory: each entry of it once that has the extension and is not seen as a
directory, and nothing else, in the order of the bytes of their names and in whatever order the
directory is listed. -/
theorem candidates_exact (config : Config) (hfs : fs.WellFormed)
    (hlocate : fs.locate directory = .ok (.taken loc .directory)) :
    ∃ names : List String, candidates config fs directory = .ok (names.map (Path.join directory)) ∧
      (∀ name, name ∈ names ↔ fs.entryAt? (loc ++ [name]) ≠ none ∧
        ¬fs.FindsFolder directory loc name ∧ Path.HasExtension name config.extension) ∧
      (names.map (Path.join directory)).Nodup ∧
      (names.Pairwise fun a b => Text.bytes a < Text.bytes b) ∧
      (∀ name ∈ names, Path.fileName? (Path.join directory name) = some name ∧
        ∃ parent, Path.parent? (Path.join directory name) = some parent ∧
          fs.LeadsTo parent loc) ∧
      ∀ fs', Reordered fs fs' →
        candidates config fs' directory = .ok (names.map (Path.join directory)) := by
  have hdirectory : fs.LeadsTo directory loc := .of_locate hlocate
  have hcandidates := candidates_eq config hlocate
  refine ⟨pageNames config fs directory loc, hcandidates,
    fun name => mem_pageNames_iff hfs hdirectory, nodup_map_join hfs hlocate,
    ascending_pageNames hfs, fun name hname => ?_, fun fs' h => ?_⟩
  · have hvalid := (hfs.isName (mem_pageNames.1 hname).1).1
    exact ⟨Path.fileName?_join hdirectory.ne_empty hvalid, hdirectory.exists_parent hvalid⟩
  · rw [candidates_reordered h hfs, hcandidates]

/-- A file with a name that starts with a dot, one with the extension in capitals, a directory, a
link to it and a link to nothing. -/
def varied : FileSystem where
  entries := [(["pages"], .directory), (["pages", "gone.html"], .link "nothing"),
    (["pages", "a.b.html"], .file ⟨#[]⟩), (["pages", ".html"], .file ⟨#[]⟩),
    (["pages", "c.HTML"], .file ⟨#[]⟩), (["pages", "sub.html"], .directory),
    (["pages", "link.html"], .link "sub.html"), (["pages", "sub.html", "d.html"], .file ⟨#[]⟩)]
  workingDirectory := []

theorem candidates_exact_varied :
    varied.WellFormed ∧ varied.locate "pages" = .ok (.taken ["pages"] .directory) ∧
      ∃ names : List String, candidates {} varied "pages" = .ok (names.map (Path.join "pages")) ∧
        "a.b.html" ∈ names ∧ "gone.html" ∈ names ∧ "link.html" ∉ names ∧ "sub.html" ∉ names ∧
        ".html" ∉ names ∧ "c.HTML" ∉ names ∧
        names.Pairwise fun a b => Text.bytes a < Text.bytes b := by
  have hfs : varied.WellFormed := by decide +kernel
  have hlocate : varied.locate "pages" = .ok (.taken ["pages"] .directory) := locate_pages rfl rfl
  have hvalid : ∀ name ∈ ["a.b.html", "nothing", "gone.html", "sub.html", "link.html"],
      IsName name ∧ Fits name := by decide
  have hlooked := fun name hname => isLookedUp (hvalid name hname).1 (hvalid name hname).2
  -- the link to nothing is no folder
  have hgone : ¬varied.IsFolder ["pages"] "gone.html" := by
    rw [isFolder_link_iff (hlooked _ (by simp)) rfl]
    rintro ⟨links, dir, hreaches⟩
    have hvacant : varied.walk false links ["pages"] ["nothing"] =
        .ok (.vacant ["pages"] "nothing") :=
      walk_vacant (hvalid _ (by simp)).1 (hvalid _ (by simp)).2 rfl
    cases hreaches.walk_eq.symm.trans hvacant
  obtain ⟨names, hcandidates, hmem, -, hsorted, -⟩ := candidates_exact {} hfs hlocate
  -- the directory is found, also through the link
  have hfound : ∀ name n target, (Path.join "pages" name).utf8ByteSize < maxPathLength →
      n ≤ maxLinks → varied.Reaches n ["pages"] [name] target → name ∉ names :=
    fun name n target hshort hlinks hreaches hin => ((hmem name).1 hin).2.1 ⟨hshort, 0, n, target,
      by omega, (.enter (isLookedUp (by decide) (by decide)) rfl .done), hreaches⟩
  have hsub : varied.Reaches 0 ["pages"] ["sub.html"] ["pages", "sub.html"] :=
    .enter (hlooked _ (by simp)) rfl .done
  have hother : ∀ name, Path.extensionOfName? name ≠ some "html" → name ∉ names :=
    fun name hne hin => hne (Path.extensionOfName?_eq_some_iff.2 ((hmem name).1 hin).2.2)
  refine ⟨hfs, hlocate, names, hcandidates, (hmem _).2 ⟨?_, ?_, ?_⟩, (hmem _).2 ⟨?_, ?_, ?_⟩,
    ?_, ?_, ?_, ?_, hsorted⟩
  · decide
  · exact fun h => not_isFolder_of_file (hvalid _ (by simp)).1 (hvalid _ (by simp)).2 rfl h.isFolder
  · exact ⟨"a.b", by decide, rfl, by decide⟩
  · decide
  · exact fun h => hgone h.isFolder
  · exact ⟨"gone", by decide, rfl, by decide⟩
  · exact hfound _ 1 _ (by decide) (by decide) (.follow (hlooked _ (by simp)) rfl hsub)
  · exact hfound _ 0 _ (by decide) (by decide) hsub
  · exact hother _ (by decide)
  · exact hother _ (by decide)

/-! ### A folder that is taken for a page -/

/-- A path to a directory, with that many slashes at its end. -/
def slashed (slashes : Nat) : String := "pages" ++ String.ofList (List.replicate slashes '/')

/-- A directory with a directory whose name has the extension. -/
def nested : FileSystem where
  entries := [(["pages"], .directory), (["pages", "a.html"], .directory)]
  workingDirectory := []

theorem slashed_succ (slashes : Nat) : slashed (slashes + 1) = slashed slashes ++ "/" := by
  apply String.toList_injective
  simp [slashed, List.replicate_succ']

theorem utf8ByteSize_slashed (slashes : Nat) : (slashed slashes).utf8ByteSize = 5 + slashes := by
  induction slashes with
  | zero => rfl
  | succ n ih =>
    rw [slashed_succ, String.utf8ByteSize_append, ih]
    rfl

theorem endsInSlash_slashed (slashes : Nat) : Path.endsInSlash (slashed (slashes + 1)) = true := by
  rw [slashed_succ, Path.endsInSlash, String.toList_append, List.getLast?_append]
  rfl

theorem parts_slashed (slashes : Nat) : Path.parts (slashed slashes) = Path.parts "pages" := by
  induction slashes with
  | zero => rfl
  | succ n ih =>
    have hcut : slashed n ++ "/" = String.ofList ((slashed n).toList ++ '/' :: []) := by
      apply String.toList_injective
      simp
    rw [slashed_succ, hcut, Path.parts_slash _ (by simp), String.ofList_toList, ih]
    rfl

theorem leadsTo_slashed (slashes : Nat) : nested.LeadsTo (slashed slashes) ["pages"] := by
  have hpages : nested.LeadsTo "pages" ["pages"] := .of_locate (locate_pages rfl rfl)
  refine hpages.of_parts ?_ ?_ ?_ (parts_slashed slashes)
  · simp [slashed]
  · simp [slashed]
  · simp [slashed, Path.isAbsolute]

/-- Behind a path of nearly the greatest length, a directory is taken for a page. -/
theorem candidates_long_path :
    nested.WellFormed ∧ nested.locate (slashed 4085) = .ok (.taken ["pages"] .directory) ∧
      nested.entryAt? ["pages", "a.html"] = some .directory ∧ nested.IsFolder ["pages"] "a.html" ∧
      candidates {} nested (slashed 4085) = .ok [Path.join (slashed 4085) "a.html"] := by
  have hfs : nested.WellFormed := by decide +kernel
  have hname : IsName "a.html" ∧ Fits "a.html" := by decide
  have hdirectory := leadsTo_slashed 4085
  have hlocate : nested.locate (slashed 4085) = .ok (.taken ["pages"] .directory) := by
    apply hdirectory.locate_eq
    rw [utf8ByteSize_slashed]
    decide
  refine ⟨hfs, hlocate, rfl, .of_directory hname.1 hname.2 rfl, ?_⟩
  -- the path of the directory below has as many bytes as are refused
  have hlong : ¬nested.FindsFolder (slashed 4085) ["pages"] "a.html" := by
    intro h
    have hshort := h.short
    rw [Path.join, if_pos (.inr (endsInSlash_slashed 4084)), String.utf8ByteSize_append,
      utf8ByteSize_slashed] at hshort
    exact absurd hshort (by decide)
  have hpages : pageNames {} nested (slashed 4085) ["pages"] = ["a.html"] := by
    have hcandidate : isCandidate {} nested (slashed 4085) "a.html" = true := by
      have hnot := mt (hdirectory.isDirectory_join_iff hname.1).1 hlong
      rw [isCandidate, Bool.eq_false_iff.2 hnot]
      decide
    rw [pageNames, show nested.names ["pages"] = ["a.html"] from rfl,
      List.filter_cons_of_pos hcandidate]
    exact List.mergeSort_singleton _
  rw [candidates_eq {} hlocate, hpages]
  rfl

/-! ### Extensions with a dot -/

/-- A file with an accepted extension is a page just when the extension has no dot. If it has one,
there are no pages. -/
theorem mem_candidates_iff {stem : String} {bytes : ByteArray} (hcheck : config.check = .ok ())
    (hfs : fs.WellFormed) (hlocate : fs.locate directory = .ok (.taken loc .directory))
    (hstem : stem ≠ "")
    (hfile : fs.entryAt? (loc ++ [stem ++ "." ++ config.extension]) = some (.file bytes)) :
    ∃ paths, candidates config fs directory = .ok paths ∧
      (Path.join directory (stem ++ "." ++ config.extension) ∈ paths ↔
        '.' ∉ config.extension.toList.tail) ∧
      ('.' ∈ config.extension.toList.tail → paths = []) := by
  have hdirectory : fs.LeadsTo directory loc := .of_locate hlocate
  have hdot : '.' ∈ config.extension.toList ↔ '.' ∈ config.extension.toList.tail :=
    Config.dot_mem_extension_iff hcheck
  have hnone : '.' ∈ config.extension.toList.tail → pageNames config fs directory loc = [] := by
    intro htail
    refine List.eq_nil_iff_forall_not_mem.2 fun name hname => ?_
    obtain ⟨-, -, -, hfree⟩ := ((mem_pageNames_iff hfs hdirectory).1 hname).2.2
    exact hfree (hdot.2 htail)
  refine ⟨_, candidates_eq config hlocate, ⟨fun hmem htail => ?_, fun htail => ?_⟩, fun htail => ?_⟩
  · rw [hnone htail] at hmem
    cases hmem
  · refine List.mem_map_of_mem ((mem_pageNames_of_file hfs hdirectory hfile).2 ?_)
    exact Path.extensionOfName?_eq_some_iff.2 ⟨stem, hstem, rfl, mt hdot.1 htail⟩
  · rw [hnone htail]
    rfl

theorem mem_candidates_sample :
    ({} : Config).check = .ok () ∧ sample.WellFormed ∧
      ∃ paths, candidates {} sample "pages" = .ok paths ∧ "pages/a.html" ∈ paths := by
  have hcheck : ({} : Config).check = .ok () := by decide
  have hfile : sample.entryAt? (["pages"] ++ ["a" ++ "." ++ "html"]) =
      some (.file (sampleContents "a.html")) := rfl
  obtain ⟨paths, hcandidates, hmem, -⟩ := mem_candidates_iff hcheck wellFormed_sample locate_sample
    (by decide) hfile
  exact ⟨hcheck, wellFormed_sample, paths, hcandidates, hmem.2 (by decide)⟩

/-- A directory with an archive. -/
def archive : FileSystem where
  entries := [(["pages"], .directory), (["pages", "a.tar.gz"], .file ⟨#[]⟩)]
  workingDirectory := []

/-- An extension with a dot is accepted, but a file that has it is no page. -/
theorem candidates_two_dots :
    Config.check { extension := "tar.gz" } = .ok () ∧ archive.WellFormed ∧
      archive.entryAt? ["pages", "a" ++ "." ++ "tar.gz"] = some (.file ⟨#[]⟩) ∧
      candidates { extension := "tar.gz" } archive "pages" = .ok [] := by
  have hfs : archive.WellFormed := by decide +kernel
  have hlocate : archive.locate "pages" = .ok (.taken ["pages"] .directory) := locate_pages rfl rfl
  have hcandidate : isCandidate { extension := "tar.gz" } archive "pages" "a.tar.gz" = false := by
    rw [isCandidate, Bool.and_eq_false_iff]
    exact .inr (by decide)
  refine ⟨by decide, hfs, rfl, ?_⟩
  rw [candidates_eq _ hlocate, pageNames, show archive.names ["pages"] = ["a.tar.gz"] from rfl,
    List.filter_cons_of_neg (by simp [hcandidate]), List.filter_nil, List.mergeSort_nil]
  rfl

end Batch

end PageMend
