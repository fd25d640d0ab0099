import PageMend.Storage.Path

/-!
# The parts of a path

What leads somewhere in a path are its parts: the texts between slashes that are neither empty nor
a single dot. A name behind a directory adds itself to them (`filter_segments_join`), and the
parent of the joined path has the parts of the directory again (`parent?_join`), though it may be
spelled otherwise. The extension of a name is what stands behind its last dot, if that is not its
first character (`extensionOfName?_eq_some_iff`).
-/

namespace PageMend.Storage

/-- A name that an entry of a directory can have. -/
structure IsName (name : String) : Prop where
  ne_empty : name ≠ ""
  ne_dot : name ≠ "."
  ne_dots : name ≠ ".."
  no_slash : '/' ∉ name.toList
  no_nul : '\x00' ∉ name.toList

instance : DecidablePred IsName := fun name =>
  decidable_of_iff
    (name ≠ "" ∧ name ≠ "." ∧ name ≠ ".." ∧ '/' ∉ name.toList ∧ '\x00' ∉ name.toList)
    ⟨fun ⟨h, hdot, hdots, hslash, hnul⟩ => ⟨h, hdot, hdots, hslash, hnul⟩,
      fun h => ⟨h.ne_empty, h.ne_dot, h.ne_dots, h.no_slash, h.no_nul⟩⟩

namespace Path

/-- Whether a text between slashes leads somewhere. -/
def leads (part : String) : Bool := part ≠ "" && part ≠ "."

/-- The parts of a path that lead somewhere. -/
def parts (path : String) : List String := (segments path).filter leads

/-- What stands before the slash to which `join` appends a name. -/
def stem (directory : String) : String :=
  if endsInSlash directory then String.ofList directory.toList.dropLast else directory

/-! ### Segments -/

theorem segments_append (directory rest : String) :
    segments (directory ++ "/" ++ rest) = segments directory ++ segments rest := by
  have hlist : (directory ++ "/" ++ rest).toList = directory.toList ++ '/' :: rest.toList := by
    simp
  simp only [segments, hlist, List.splitOn_eq_splitOnP]
  rw [List.splitOnP_append_cons _ _ (by simp), List.map_append]

theorem segments_of_no_slash {name : String} (h : '/' ∉ name.toList) : segments name = [name] := by
  have hone : name.toList.splitOn '/' = [name.toList] := by
    rw [List.splitOn_eq_splitOnP]
    exact List.splitOnP_eq_singleton fun c hc => beq_eq_false_iff_ne.2 fun e => h (e ▸ hc)
  simp [segments, hone]

theorem segments_append_name (directory : String) {name : String} (h : '/' ∉ name.toList) :
    segments (directory ++ "/" ++ name) = segments directory ++ [name] := by
  rw [segments_append, segments_of_no_slash h]

theorem mem_of_mem_splitOn {cs piece : List Char} {c : Char} (hpiece : piece ∈ cs.splitOn '/')
    (hc : c ∈ piece) : c ∈ cs ∧ c ≠ '/' := by
  induction cs generalizing piece with
  | nil =>
    obtain rfl : piece = [] := by simpa using hpiece
    cases hc
  | cons d cs ih =>
    rw [List.splitOn_cons_eq_if_modifyHead] at hpiece
    split at hpiece
    · rcases List.mem_cons.1 hpiece with rfl | hpiece
      · cases hc
      · exact (ih hpiece hc).imp_left (List.mem_cons_of_mem d)
    · rename_i hd
      obtain ⟨first, pieces, hcs⟩ := List.exists_cons_of_ne_nil (List.splitOn_ne_nil '/' cs)
      rw [hcs, List.modifyHead_cons] at hpiece
      rcases List.mem_cons.1 hpiece with rfl | hpiece
      · rcases List.mem_cons.1 hc with rfl | hc
        · exact ⟨List.mem_cons_self, by simpa using hd⟩
        · exact (ih (by simp [hcs]) hc).imp_left (List.mem_cons_of_mem d)
      · exact (ih (by simp [hcs, hpiece]) hc).imp_left (List.mem_cons_of_mem d)

/-- The characters of a segment are characters of the path, and none is a slash. -/
theorem mem_of_mem_segments {path part : String} {c : Char} (hpart : part ∈ segments path)
    (hc : c ∈ part.toList) : c ∈ path.toList ∧ c ≠ '/' := by
  obtain ⟨piece, hpiece, rfl⟩ := List.mem_map.1 hpart
  exact mem_of_mem_splitOn hpiece (by simpa using hc)

/-- A slash between two lists of characters is one between two paths. -/
theorem ofList_slash (xs ys : List Char) :
    String.ofList (xs ++ '/' :: ys) = String.ofList xs ++ "/" ++ String.ofList ys :=
  String.ext (by simp)

/-- The parts in front of a slash and the one behind it. -/
theorem parts_slash (xs : List Char) {ys : List Char} (h : '/' ∉ ys) :
    parts (String.ofList (xs ++ '/' :: ys)) =
      parts (String.ofList xs) ++ [String.ofList ys].filter leads := by
  rw [ofList_slash, parts, segments_append_name _ (by simpa using h), List.filter_append, parts]

/-! ### Trimming -/

theorem trimReversed_suffix (cs : List Char) : trimReversed cs <:+ cs := by
  fun_induction trimReversed cs with
  | case1 => exact List.suffix_refl _
  | case2 cs _ ih => exact ih.trans (List.suffix_cons _ _)
  | case3 cs ih => exact ih.trans (List.suffix_cons _ _)
  | case4 => exact List.suffix_refl _

theorem trimReversed_ne_nil {cs : List Char} (h : cs ≠ []) : trimReversed cs ≠ [] := by
  fun_induction trimReversed cs with
  | case1 => exact h
  | case2 cs hcs ih => exact ih fun e => hcs (e ▸ rfl)
  | case3 cs ih => exact ih (List.cons_ne_nil _ _)
  | case4 => exact h

theorem getLast?_trimReversed {cs : List Char} (h : cs ≠ []) :
    (trimReversed cs).getLast? = cs.getLast? := by
  obtain ⟨xs, hxs⟩ := trimReversed_suffix cs
  calc
    (trimReversed cs).getLast? = (xs ++ trimReversed cs).getLast? := by
      rw [List.getLast?_append, List.getLast?_eq_some_getLast (trimReversed_ne_nil h)]
      rfl
    _ = cs.getLast? := by rw [hxs]

/-- What is trimmed away leads nowhere. -/
theorem parts_trimReversed (cs : List Char) :
    parts (String.ofList (trimReversed cs).reverse) = parts (String.ofList cs.reverse) := by
  fun_induction trimReversed cs with
  | case1 => rfl
  | case2 cs _ ih =>
    rw [ih, List.reverse_cons, parts_slash _ (by simp)]
    simp [leads]
  | case3 cs ih =>
    rw [ih, List.reverse_cons, List.reverse_cons, List.reverse_cons, List.append_assoc]
    rw [parts_slash _ (by simp), List.singleton_append, parts_slash _ (by simp)]
    simp [leads]
  | case4 => rfl

/-- Nothing is trimmed behind a name. -/
theorem trimReversed_name {name : String} (h : IsName name) (rest : List Char) :
    trimReversed (name.toList.reverse ++ rest) = name.toList.reverse ++ rest := by
  have hslash : '/' ∉ name.toList.reverse := fun hm => h.no_slash (List.mem_reverse.1 hm)
  -- whether anything is trimmed is decided by the first two characters
  rcases hr : name.toList.reverse with _ | ⟨c, _ | ⟨d, cs⟩⟩
  · exact absurd (by simpa using hr) h.ne_empty
  · have hc : c ≠ '/' := fun e => hslash (by simp [hr, e])
    have hdot : c ≠ '.' := by
      rintro rfl
      have : name.toList = ['.'] := by simpa using congrArg List.reverse hr
      exact h.ne_dot (String.ext this)
    rw [trimReversed.eq_def]
    split <;> simp_all
  · have hc : c ≠ '/' := fun e => hslash (by simp [hr, e])
    have hd : d ≠ '/' := fun e => hslash (by simp [hr, e])
    rw [trimReversed.eq_def]
    split <;> simp_all

/-! ### Joining -/

section Join

variable {directory : String}

theorem toList_stem (h : endsInSlash directory = true) :
    directory.toList = (stem directory).toList ++ ['/'] := by
  have hlast : directory.toList.getLast? = some '/' := by simpa [endsInSlash] using h
  obtain ⟨xs, hxs⟩ := List.getLast?_eq_some_iff.1 hlast
  simp [stem, h, hxs]

theorem join_eq (name : String) (h : directory ≠ "") :
    join directory name = stem directory ++ "/" ++ name := by
  by_cases hslash : endsInSlash directory = true
  · have hdir : directory = stem directory ++ "/" :=
      String.ext (by simpa using toList_stem hslash)
    rw [join, if_pos (.inr hslash)]
    exact congrArg (· ++ name) hdir
  · rw [join, if_neg (by simp [h, hslash]), stem, if_neg hslash]

theorem join_ne_empty (name : String) (h : directory ≠ "") : join directory name ≠ "" := by
  simp [join_eq name h]

theorem parts_stem (directory : String) : parts (stem directory) = parts directory := by
  by_cases hslash : endsInSlash directory = true
  · have hdir : directory = String.ofList ((stem directory).toList ++ '/' :: []) :=
      String.ext (by simpa using toList_stem hslash)
    calc
      parts (stem directory) = parts (String.ofList ((stem directory).toList ++ '/' :: [])) := by
        rw [parts_slash _ (by simp)]
        simp [leads]
      _ = parts directory := by rw [← hdir]
  · rw [stem, if_neg hslash]

theorem mem_of_mem_stem {c : Char} (h : c ∈ (stem directory).toList) : c ∈ directory.toList := by
  by_cases hslash : endsInSlash directory = true
  · rw [toList_stem hslash]
    exact List.mem_append_left _ h
  · rwa [stem, if_neg hslash] at h

/-- The characters of a joined path come from its two pieces, but for a slash. -/
theorem mem_of_mem_join {name : String} {c : Char} (h : directory ≠ "")
    (hc : c ∈ (join directory name).toList) :
    c ∈ directory.toList ∨ c = '/' ∨ c ∈ name.toList := by
  rw [join_eq name h] at hc
  simp only [String.toList_append, List.mem_append] at hc
  rcases hc with (hc | hc) | hc
  · exact .inl (mem_of_mem_stem hc)
  · exact .inr (.inl (by simpa using hc))
  · exact .inr (.inr hc)

theorem mem_join {name : String} {c : Char} (hc : c ∈ name.toList) :
    c ∈ (join directory name).toList := by
  by_cases h : directory = ""
  · simpa [join, h] using hc
  · rw [join_eq name h, String.toList_append]
    exact List.mem_append_right _ hc

/-- A joined path starts where its directory starts. -/
theorem isAbsolute_join (name : String) (h : directory ≠ "") :
    isAbsolute (join directory name) = isAbsolute directory := by
  rw [join_eq name h]
  by_cases hslash : endsInSlash directory = true
  · cases hstem : (stem directory).toList <;>
      simp [isAbsolute, toList_stem hslash, hstem]
  · have hne : directory.toList ≠ [] := by simpa using h
    obtain ⟨c, cs, hcs⟩ := List.exists_cons_of_ne_nil hne
    simp [isAbsolute, stem, hslash, hcs]

variable {name : String}

theorem endsInSlash_name (hn : IsName name) (front : String) :
    endsInSlash (front ++ name) = false := by
  have hne : name.toList ≠ [] := by simpa using hn.ne_empty
  have hlast : (front ++ name).toList.getLast? = some (name.toList.getLast hne) := by
    rw [String.toList_append, List.getLast?_append, List.getLast?_eq_some_getLast hne]
    rfl
  have hslash : name.toList.getLast hne ≠ '/' := fun e => hn.no_slash (e ▸ List.getLast_mem hne)
  rw [endsInSlash, hlast]
  simpa using hslash

theorem join_empty (name : String) : join "" name = name := by simp [join]

theorem endsInSlash_join (directory : String) (hn : IsName name) :
    endsInSlash (join directory name) = false := by
  by_cases h : directory = ""
  · subst h
    rw [join_empty, ← String.empty_append (s := name)]
    exact endsInSlash_name hn ""
  · rw [join_eq name h]
    exact endsInSlash_name hn _

/-- What is followed in a joined path: what is followed in the directory, then the name. -/
theorem filter_segments_join (directory : String) (hn : IsName name) :
    (segments (join directory name)).filter (· ≠ "") =
      (segments (stem directory)).filter (· ≠ "") ++ [name] := by
  by_cases h : directory = ""
  · subst h
    rw [join_empty, segments_of_no_slash hn.no_slash]
    simp [hn.ne_empty, stem, endsInSlash, segments]
  · rw [join_eq name h, segments_append_name _ hn.no_slash, List.filter_append]
    simp [hn.ne_empty]

theorem toList_join_reverse (h : directory ≠ "") :
    (join directory name).toList.reverse =
      name.toList.reverse ++ '/' :: (stem directory).toList.reverse := by
  simp [join_eq name h]

/-- The characters of a name are none of a slash. -/
theorem ne_slash_of_mem_reverse (hn : IsName name) :
    ∀ c ∈ name.toList.reverse, decide (c ≠ '/') = true := by
  intro c hc
  exact decide_eq_true fun e => hn.no_slash (e ▸ List.mem_reverse.1 hc)

/-- The file name of a path is the name at its end. -/
theorem fileName?_of_reverse {path : String} {rest : List Char} (hn : IsName name)
    (hpath : path.toList.reverse = name.toList.reverse ++ rest)
    (hrest : rest.takeWhile (· ≠ '/') = []) : fileName? path = some name := by
  have hname : (trimReversed path.toList.reverse).takeWhile (· ≠ '/') = name.toList.reverse := by
    rw [hpath, trimReversed_name hn, List.takeWhile_append_of_pos (ne_slash_of_mem_reverse hn),
      hrest, List.append_nil]
  simp only [fileName?, hname, List.reverse_reverse, String.ofList_toList]
  rw [if_neg (by simp [hn.ne_empty, hn.ne_dot, hn.ne_dots])]

theorem fileName?_join (h : directory ≠ "") (hn : IsName name) :
    fileName? (join directory name) = some name :=
  fileName?_of_reverse hn (toList_join_reverse h) (List.takeWhile_cons_of_neg (by simp))

theorem no_slash_fileName? (path : String) : '/' ∉ ((fileName? path).getD "").toList := by
  simp only [fileName?]
  split
  · simp
  · intro hmem
    have hslash := List.all_takeWhile (p := fun c => decide (c ≠ '/'))
      (l := trimReversed path.toList.reverse)
    simpa using List.all_eq_true.1 hslash '/' (by simpa using hmem)

/-- A path has no slash or is cut at its last one. -/
theorem exists_last_slash (path : String) :
    '/' ∉ path.toList ∨ ∃ front last, path = front ++ "/" ++ last ∧ '/' ∉ last.toList := by
  by_cases hmem : '/' ∈ path.toList.reverse
  · obtain ⟨last, front, hcut, hlast⟩ := List.eq_append_cons_of_mem hmem
    refine .inr ⟨String.ofList front.reverse, String.ofList last.reverse, ?_, by simpa using hlast⟩
    rw [← ofList_slash]
    have hpath : path.toList = front.reverse ++ '/' :: last.reverse := by
      simpa using congrArg List.reverse hcut
    exact String.ext (by rw [hpath, String.toList_ofList])
  · exact .inl (by simpa using hmem)

/-- The file name of a path is its last segment, where that is a name. -/
theorem fileName?_of_segments {path : String} (hn : IsName name)
    (hslash : endsInSlash path = false)
    (hlast : ((segments path).filter (· ≠ "")).getLast? = some name) :
    fileName? path = some name := by
  rcases exists_last_slash path with hclean | ⟨front, last, rfl, hclean⟩
  · rw [segments_of_no_slash hclean] at hlast
    obtain rfl : path = name := by
      by_cases hempty : path = ""
      · simp [hempty] at hlast
      · simpa [hempty] using hlast
    exact fileName?_of_reverse hn (List.append_nil _).symm rfl
  · have hne : last ≠ "" := by
      rintro rfl
      simp [endsInSlash] at hslash
    rw [segments_append_name _ hclean, List.filter_append] at hlast
    obtain rfl : last = name := by simpa [hne] using hlast
    have hpath : (front ++ "/" ++ last).toList.reverse =
        last.toList.reverse ++ '/' :: front.toList.reverse := by simp
    exact fileName?_of_reverse hn hpath (List.takeWhile_cons_of_neg (by simp))

theorem parent?_join_eq (h : directory ≠ "") (hn : IsName name) :
    parent? (join directory name) =
      some (String.ofList (trimReversed ('/' :: (stem directory).toList.reverse)).reverse) := by
  have hdrop : (name.toList.reverse ++ '/' :: (stem directory).toList.reverse).dropWhile (· ≠ '/') =
      '/' :: (stem directory).toList.reverse := by
    rw [List.dropWhile_append_of_pos (ne_slash_of_mem_reverse hn),
      List.dropWhile_cons_of_neg (by simp)]
  have hne : name.toList.reverse ≠ [] := by simpa using hn.ne_empty
  obtain ⟨c, cs, hcs⟩ := List.exists_cons_of_ne_nil hne
  rw [parent?, toList_join_reverse h, trimReversed_name hn]
  split
  · rename_i hnil
    simp [hcs] at hnil
  · rename_i hone
    simp [hcs] at hone
  · rw [hdrop]

/-- The parent of a joined path leads where the directory leads. -/
theorem parent?_join (h : directory ≠ "") (hn : IsName name) :
    ∃ parent, parent? (join directory name) = some parent ∧ parent ≠ "" ∧
      parts parent = parts directory ∧ isAbsolute parent = isAbsolute directory ∧
      ∀ c ∈ parent.toList, c ∈ directory.toList ∨ c = '/' := by
  have hcs : '/' :: (stem directory).toList.reverse ≠ [] := List.cons_ne_nil _ _
  refine ⟨_, parent?_join_eq h hn, ?_, ?_, ?_, ?_⟩
  · simpa using trimReversed_ne_nil hcs
  · rw [parts_trimReversed, List.reverse_cons, List.reverse_reverse, parts_slash _ (by simp)]
    simpa [leads] using parts_stem directory
  · rw [← isAbsolute_join name h, join_eq name h]
    simp only [isAbsolute, String.toList_ofList, List.head?_reverse, getLast?_trimReversed hcs]
    cases hstem : (stem directory).toList with
    | nil => simp [hstem]
    | cons c cs => simp [hstem, List.getLast?_cons]
  · intro c hc
    have hmem : c ∈ '/' :: (stem directory).toList.reverse :=
      (trimReversed_suffix _).subset (by simpa using hc)
    rcases List.mem_cons.1 hmem with hc | hc
    · exact .inr hc
    · exact .inl (mem_of_mem_stem (List.mem_reverse.1 hc))

end Join

/-! ### Extensions -/

/-- The name has a dot behind its first character, and the extension is what stands behind its last
dot. -/
def HasExtension (name extension : String) : Prop :=
  ∃ stem, stem ≠ "" ∧ name = stem ++ "." ++ extension ∧ '.' ∉ extension.toList

theorem extensionOfName?_eq_some_iff {name extension : String} :
    extensionOfName? name = some extension ↔ HasExtension name extension := by
  constructor
  · intro h
    have hcut := List.takeWhile_append_dropWhile (p := (· ≠ '.')) (l := name.toList.reverse)
    simp only [extensionOfName?] at h
    split at h
    · rename_i dot last front hdrop
      have hdot : dot = '.' := by
        have hhead := List.head?_dropWhile_not (· ≠ '.') name.toList.reverse
        rw [hdrop] at hhead
        simpa using hhead
      cases h
      refine ⟨String.ofList (last :: front).reverse, by simp, String.ext ?_, fun hmem => ?_⟩
      · rw [hdrop, hdot] at hcut
        simpa using congrArg List.reverse hcut.symm
      · rw [String.toList_ofList, List.mem_reverse] at hmem
        simpa using List.all_eq_true.1 List.all_takeWhile _ hmem
    · cases h
  · rintro ⟨stem, hstem, rfl, hdot⟩
    obtain ⟨last, front, hlast⟩ := List.exists_cons_of_ne_nil
      (l := stem.toList.reverse) (by simpa using hstem)
    have hname : (stem ++ "." ++ extension).toList.reverse =
        extension.toList.reverse ++ '.' :: last :: front := by
      simp [← hlast]
    have hfree : ∀ c ∈ extension.toList.reverse, decide (c ≠ '.') = true := fun c hc =>
      decide_eq_true fun he => hdot (he ▸ List.mem_reverse.1 hc)
    simp only [extensionOfName?, hname]
    rw [List.dropWhile_append_of_pos hfree, List.takeWhile_append_of_pos hfree,
      List.dropWhile_cons_of_neg (by simp), List.takeWhile_cons_of_neg (by simp)]
    simp

end Path

end PageMend.Storage
