import PageMend.Proofs.Storage.Operations

/-!
# The trail of a walk

`trail` lists the locations at which a walk looks for an entry. A walk depends on the entries there
and on no others (`walk_congr`), so what happens elsewhere changes neither where a path leads nor
what is read (`Agree`). Where a file is put on the trail of a directory, that directory is reached
no more (`Reaches.exists_error_put`).

Parts either reach a directory, or no walk gets past them (`reaches_or_error`).
-/

namespace PageMend.Storage

namespace FileSystem

/-- The locations at which a walk looks for an entry, in the order in which it does. -/
def trail (fs : FileSystem) (links : Nat) (here : Location) : List String → List Location
  | [] => []
  | name :: rest =>
    if name = "" ∨ name = "." then trail fs links here rest
    else if name = ".." then trail fs links here.dropLast rest
    else if maxNameLength < name.utf8ByteSize then []
    else
      match fs.entryAt? (here ++ [name]) with
      | none => [here ++ [name]]
      | some .directory => (here ++ [name]) :: trail fs links (here ++ [name]) rest
      | some (.file _) => [here ++ [name]]
      | some (.link target) =>
        match links with
        | 0 => [here ++ [name]]
        | links + 1 =>
          (here ++ [name]) ::
            trail fs links (if Path.isAbsolute target then [] else here) (steps target ++ rest)
termination_by parts => (links, parts.length)

/-- The trail of a path. -/
def trailOf (fs : FileSystem) (path : String) : List Location :=
  fs.trail maxLinks (fs.start path) (steps path)

variable {fs fs' : FileSystem} {making : Bool} {links : Nat} {here loc l : Location}
  {e : Entry} {name path directory : String} {rest xs ys : List String}

/-! ### One step of a trail -/

theorem trail_skip (h : name = "" ∨ name = ".") :
    fs.trail links here (name :: rest) = fs.trail links here rest := by
  rw [trail, if_pos h]

theorem trail_up : fs.trail links here (".." :: rest) = fs.trail links here.dropLast rest := by
  rw [trail, if_neg (by decide), if_pos rfl]

theorem trail_enter (hname : IsLookedUp name)
    (hentry : fs.entryAt? (here ++ [name]) = some .directory) :
    fs.trail links here (name :: rest) =
      (here ++ [name]) :: fs.trail links (here ++ [name]) rest := by
  rw [trail, if_neg hname.leads, if_neg hname.ne_dots, if_neg hname.short]
  simp only [hentry]

theorem trail_follow {target : String} (hname : IsLookedUp name)
    (hentry : fs.entryAt? (here ++ [name]) = some (.link target)) :
    fs.trail (links + 1) here (name :: rest) =
      (here ++ [name]) ::
        fs.trail links (if Path.isAbsolute target then [] else here) (steps target ++ rest) := by
  rw [trail, if_neg hname.leads, if_neg hname.ne_dots, if_neg hname.short]
  simp only [hentry]

theorem trail_file {bytes : ByteArray} (hname : IsLookedUp name)
    (hentry : fs.entryAt? (here ++ [name]) = some (.file bytes)) :
    fs.trail links here (name :: rest) = [here ++ [name]] := by
  rw [trail, if_neg hname.leads, if_neg hname.ne_dots, if_neg hname.short]
  simp only [hentry]

/-! ### What a walk depends on -/

/-- One step of a walk at a name that is looked up. -/
theorem walk_lookUp (hname : IsLookedUp name) :
    fs.walk making links here (name :: rest) =
      if making = true ∧ rest = [""] then .error .isDirectory
      else
        match fs.entryAt? (here ++ [name]) with
        | none => if rest = [] then .ok (.vacant here name) else .error .notFound
        | some .directory => fs.walk making links (here ++ [name]) rest
        | some (.file bytes) =>
          if rest = [] then .ok (.taken (here ++ [name]) (.file bytes)) else .error .notDirectory
        | some (.link target) =>
          match links with
          | 0 => .error .tooManyLinks
          | links + 1 =>
            fs.walk making links (if Path.isAbsolute target then [] else here)
              (steps target ++ rest) := by
  rw [walk, if_neg hname.leads, if_neg hname.ne_dots]
  exact if_congr Iff.rfl rfl (if_neg hname.short)

theorem walk_of_long (hleads : ¬(name = "" ∨ name = ".")) (hdots : name ≠ "..")
    (hlong : maxNameLength < name.utf8ByteSize) :
    fs.walk making links here (name :: rest) =
      .error (if making = true ∧ rest = [""] then .isDirectory else .nameTooLong) := by
  rw [walk, if_neg hleads, if_neg hdots]
  by_cases hslash : making = true ∧ rest = [""]
  · rw [if_pos hslash, if_pos hslash]
  · rw [if_neg hslash, if_neg hslash, if_pos hlong]

/-- A walk depends only on the entries on its trail. -/
theorem walk_congr (h : ∀ l ∈ fs.trail links here xs, fs'.entryAt? l = fs.entryAt? l) :
    fs'.walk making links here xs = fs.walk making links here xs := by
  fun_induction trail fs links here xs with
  | case1 => rw [walk, walk]
  | case2 links here name rest hname ih => rw [walk_skip hname, walk_skip hname, ih h]
  | case3 links here rest _ ih => rw [walk_up, walk_up, ih h]
  | case4 links here name rest hleads hdots hlong =>
    rw [walk_of_long hleads hdots hlong, walk_of_long hleads hdots hlong]
  | case6 links here name rest hleads hdots hshort hentry ih =>
    obtain ⟨hhere, hrest⟩ := List.forall_mem_cons.1 h
    have hname : IsLookedUp name := ⟨hleads, hdots, hshort⟩
    simp only [walk_lookUp hname, hhere, hentry, ih hrest]
  | case9 here name rest hleads hdots hshort target hentry links ih =>
    obtain ⟨hhere, hrest⟩ := List.forall_mem_cons.1 h
    have hname : IsLookedUp name := ⟨hleads, hdots, hshort⟩
    simp only [dite_eq_ite] at ih
    simp only [walk_lookUp hname, hhere, hentry, ih hrest]
  | case5 links here name rest hleads hdots hshort hentry
  | case7 links here name rest hleads hdots hshort bytes hentry
  | case8 here name rest hleads hdots hshort target hentry =>
    have hname : IsLookedUp name := ⟨hleads, hdots, hshort⟩
    have hhere := h _ List.mem_cons_self
    simp only [walk_lookUp hname, hhere, hentry]

/-- Parts either reach a directory, or no walk gets past them. -/
theorem reaches_or_error (fs : FileSystem) (links : Nat) (here : Location) (xs : List String) :
    (∃ loc, fs.Reaches links here xs loc) ∨
      ∀ making ys, ys ≠ [] → ∃ error, fs.walk making links here (xs ++ ys) = .error error := by
  fun_induction trail fs links here xs with
  | case1 links here => exact .inl ⟨here, .done⟩
  | case2 links here name rest hname ih =>
    refine ih.imp (fun ⟨loc, h⟩ => ⟨loc, .skip hname h⟩) fun h making ys hys => ?_
    rw [List.cons_append, walk_skip hname]
    exact h making ys hys
  | case3 links here rest _ ih =>
    refine ih.imp (fun ⟨loc, h⟩ => ⟨loc, .up h⟩) fun h making ys hys => ?_
    rw [List.cons_append, walk_up]
    exact h making ys hys
  | case4 links here name rest hleads hdots hlong =>
    refine .inr fun making ys _ => ?_
    rw [List.cons_append, walk_of_long hleads hdots hlong]
    exact ⟨_, rfl⟩
  | case6 links here name rest hleads hdots hshort hentry ih =>
    have hname : IsLookedUp name := ⟨hleads, hdots, hshort⟩
    refine ih.imp (fun ⟨loc, h⟩ => ⟨loc, .enter hname hentry h⟩) fun h making ys hys => ?_
    rw [List.cons_append, walk_lookUp hname]
    simp only [hentry]
    split
    · exact ⟨_, rfl⟩
    · exact h making ys hys
  | case9 here name rest hleads hdots hshort target hentry links ih =>
    have hname : IsLookedUp name := ⟨hleads, hdots, hshort⟩
    simp only [dite_eq_ite] at ih
    refine ih.imp (fun ⟨loc, h⟩ => ⟨loc, .follow hname hentry h⟩) fun h making ys hys => ?_
    rw [List.cons_append, walk_lookUp hname]
    simp only [hentry, ← List.append_assoc]
    split
    · exact ⟨_, rfl⟩
    · exact h making ys hys
  -- what is no directory ends the walk, and more is to follow
  | case5 links here name rest hleads hdots hshort hentry
  | case7 links here name rest hleads hdots hshort bytes hentry
  | case8 here name rest hleads hdots hshort target hentry =>
    have hname : IsLookedUp name := ⟨hleads, hdots, hshort⟩
    refine .inr fun making ys hys => ?_
    rw [List.cons_append, walk_lookUp hname]
    simp only [hentry, List.append_eq_nil_iff, hys, and_false, if_false]
    split <;> exact ⟨_, rfl⟩

/-! ### Putting a file on the trail -/

/-- Where a file is put on the trail of a directory, no walk gets there any more. -/
theorem Reaches.exists_error_put {bytes : ByteArray} (h : fs.Reaches links here xs loc)
    (hl : l ≠ []) (hmem : l ∈ fs.trail links here xs) (hys : ys ≠ []) :
    ∃ error, (fs.put l (.file bytes)).walk making links here (xs ++ ys) = .error error := by
  -- at the file the walk ends, and before it goes as it did
  have hfile : ∀ {links here name rest}, IsLookedUp name → here ++ [name] = l →
      ∃ error, (fs.put l (.file bytes)).walk making links here (name :: (rest ++ ys)) =
        .error error := by
    rintro links here name rest hname rfl
    rw [walk_lookUp hname]
    simp only [entryAt?_put hl, if_true, List.append_eq_nil_iff, hys, and_false, if_false]
    split <;> exact ⟨_, rfl⟩
  induction h with
  | done =>
    rw [trail] at hmem
    cases hmem
  | skip hname _ ih =>
    rw [trail_skip hname] at hmem
    rw [List.cons_append, walk_skip hname]
    exact ih hmem
  | up _ ih =>
    rw [trail_up] at hmem
    rw [List.cons_append, walk_up]
    exact ih hmem
  | @enter links here name rest loc hname hentry _ ih =>
    by_cases hhere : here ++ [name] = l
    · exact hfile hname hhere
    · rw [trail_enter hname hentry, List.mem_cons] at hmem
      obtain ⟨error, herror⟩ := ih (hmem.resolve_left (Ne.symm hhere))
      rw [List.cons_append, walk_lookUp hname]
      simp only [entryAt?_put hl, if_neg hhere, hentry, herror]
      split <;> exact ⟨_, rfl⟩
  | @follow links here name rest loc target hname hentry _ ih =>
    by_cases hhere : here ++ [name] = l
    · exact hfile hname hhere
    · rw [trail_follow hname hentry, List.mem_cons] at hmem
      obtain ⟨error, herror⟩ := ih (hmem.resolve_left (Ne.symm hhere))
      rw [List.append_assoc] at herror
      rw [List.cons_append, walk_lookUp hname]
      simp only [entryAt?_put hl, if_neg hhere, hentry, herror]
      split <;> exact ⟨_, rfl⟩

/-! ### Trails of paths -/

/-- What stands behind some parts adds to their trail. -/
theorem prefix_trail (fs : FileSystem) (links : Nat) (here : Location) (xs ys : List String) :
    fs.trail links here xs <+: fs.trail links here (xs ++ ys) := by
  fun_induction trail fs links here xs with
  | case1 => exact List.nil_prefix
  | case2 links here name rest hname ih =>
    rw [List.cons_append, trail_skip hname]
    exact ih
  | case3 links here rest _ ih =>
    rw [List.cons_append, trail_up]
    exact ih
  | case4 => exact List.nil_prefix
  | case6 links here name rest hleads hdots hshort hentry ih =>
    rw [List.cons_append, trail_enter ⟨hleads, hdots, hshort⟩ hentry]
    exact (List.prefix_cons_inj _).2 ih
  | case9 here name rest hleads hdots hshort target hentry links ih =>
    simp only [dite_eq_ite] at ih
    rw [List.cons_append, trail_follow ⟨hleads, hdots, hshort⟩ hentry, ← List.append_assoc]
    exact (List.prefix_cons_inj _).2 ih
  | case5 links here name rest hleads hdots hshort hentry
  | case7 links here name rest hleads hdots hshort bytes hentry
  | case8 here name rest hleads hdots hshort target hentry =>
    rw [List.cons_append, trail, if_neg hleads, if_neg hdots, if_neg hshort]
    simp only [hentry]
    exact List.prefix_rfl

/-- Two file systems agree on a path if they do on its trail. -/
structure Agree (fs fs' : FileSystem) (path : String) : Prop where
  workingDirectory : fs'.workingDirectory = fs.workingDirectory
  entryAt : ∀ l ∈ fs.trailOf path, fs'.entryAt? l = fs.entryAt? l

theorem Agree.start (h : Agree fs fs' path) : fs'.start path = fs.start path := by
  rw [FileSystem.start, FileSystem.start, h.workingDirectory]

theorem Agree.locate (h : Agree fs fs' path) : fs'.locate path = fs.locate path := by
  have hwalk : fs'.walk false maxLinks (fs.start path) (steps path) =
      fs.walk false maxLinks (fs.start path) (steps path) := walk_congr h.entryAt
  rw [FileSystem.locate, FileSystem.locate, h.start, hwalk]

theorem Agree.read (h : Agree fs fs' path) : fs'.read path = fs.read path := by
  rw [FileSystem.read, FileSystem.read, h.locate]

/-- A path to a directory leads to it where the file systems agree on a name behind it. -/
theorem LeadsTo.of_agree (h : fs.LeadsTo directory loc) (hname : IsName name)
    (hagree : Agree fs fs' (Path.join directory name)) : fs'.LeadsTo directory loc := by
  have hstart : fs'.start directory = fs.start directory := by
    rw [start, start, hagree.workingDirectory]
  have hjoin : fs.start (Path.join directory name) = fs.start directory := by
    rw [start, start, Path.isAbsolute_join name h.ne_empty]
  -- the trail of the directory is the front of the trail of the name
  have hfront : ∀ l ∈ fs.trail maxLinks (fs.start directory)
      ((Path.segments (Path.stem directory)).filter (· ≠ "")), fs'.entryAt? l = fs.entryAt? l := by
    intro l hl
    refine hagree.entryAt l ?_
    rw [trailOf, hjoin, steps_join directory hname]
    exact (prefix_trail fs _ _ _ _).subset hl
  have hreaches := h.reaches_stem name
  rw [hjoin, reaches_iff_walk, ← walk_congr hfront, ← reaches_iff_walk] at hreaches
  refine ⟨h.ne_empty, h.no_nul, ?_⟩
  rw [hstart]
  apply hreaches.of_filter_eq
  rw [filter_filter_leads, filter_steps, ← Path.parts_stem, Path.parts]

/-! ### The parent of a path -/

/-- The parts of a path in front of the last one. -/
def front (path : String) : List String := ((Path.segments path).filter (· ≠ "")).dropLast

/-- A path ends in a name, and its parts in front of that reach a directory. -/
structure NamedIn (fs : FileSystem) (path : String) (loc : Location) (name : String) : Prop where
  check : checkPath path = .ok ()
  isName : IsName name
  parts : (Path.segments path).filter (· ≠ "") = front path ++ [name]
  reaches : fs.Reaches maxLinks (fs.start path) (front path) loc

theorem Reaches.walk_dot (h : fs.Reaches links here xs loc) :
    fs.walk false links here (xs ++ ["."]) = .ok (.taken loc .directory) := by
  obtain ⟨left, hleft⟩ := h.exists_walk_append
  rw [hleft false ["."] (by simp) (by simp), walk_skip (.inr rfl), walk]

theorem no_nul_of_checkPath (h : checkPath path = .ok ()) : '\x00' ∉ path.toList := by
  intro hnul
  have hcontains : path.toList.contains '\x00' = true := by simpa using hnul
  simp only [checkPath, hcontains, if_true] at h
  split at h <;> cases h

theorem NamedIn.locateParent (h : fs.NamedIn path loc name) :
    fs.locateParent path = .ok (loc, some name) := by
  have hlast : ((Path.segments path).filter (· ≠ "")).getLast? = some name := by
    rw [h.parts, List.getLast?_concat]
  have hwalk := h.reaches.walk_dot
  rw [front] at hwalk
  simp only [FileSystem.locateParent, h.check, hwalk, hlast, bind, Except.bind, pure, Except.pure]
  rw [if_neg (not_or.2 ⟨h.isName.ne_dot, h.isName.ne_dots⟩)]

theorem NamedIn.of_locateParent (h : fs.locateParent path = .ok (loc, some name)) :
    fs.NamedIn path loc name := by
  cases hcheck : checkPath path with
  | error error =>
    simp only [FileSystem.locateParent, hcheck, bind, Except.bind] at h
    cases h
  | ok =>
    rcases fs.reaches_or_error maxLinks (fs.start path) (front path) with ⟨l, hreaches⟩ | herror
    · have hwalk := hreaches.walk_dot
      rw [front] at hwalk
      simp only [FileSystem.locateParent, hcheck, hwalk, bind, Except.bind] at h
      cases hlast : ((Path.segments path).filter (· ≠ "")).getLast? with
      | none =>
        simp only [hlast, pure, Except.pure] at h
        cases h
      | some last =>
        simp only [hlast, pure, Except.pure, Except.ok.injEq, Prod.mk.injEq] at h
        obtain ⟨rfl, h⟩ := h
        have hdots : ¬(last = "." ∨ last = "..") := by
          intro hdots
          rw [if_pos hdots] at h
          cases h
        rw [if_neg hdots] at h
        obtain rfl := Option.some.inj h
        have hmem := List.mem_filter.1 (List.mem_of_getLast? hlast)
        have hname : IsName last :=
          { ne_empty := of_decide_eq_true hmem.2
            ne_dot := (not_or.1 hdots).1
            ne_dots := (not_or.1 hdots).2
            no_slash := fun hc => (Path.mem_of_mem_segments hmem.1 hc).2 rfl
            no_nul := fun hc =>
              no_nul_of_checkPath hcheck (Path.mem_of_mem_segments hmem.1 hc).1 }
        exact ⟨hcheck, hname, (List.dropLast_append_getLast? _ hlast).symm, hreaches⟩
    · obtain ⟨error, hwalk⟩ := herror false ["."] (by simp)
      rw [front] at hwalk
      simp only [FileSystem.locateParent, hcheck, hwalk, bind, Except.bind] at h
      cases h

/-- A name behind a directory is named in it. -/
theorem LeadsTo.namedIn_join (h : fs.LeadsTo directory loc) (hname : IsName name)
    (hshort : (Path.join directory name).utf8ByteSize < maxPathLength) :
    fs.NamedIn (Path.join directory name) loc name := by
  apply NamedIn.of_locateParent
  rw [h.locateParent_join hname, if_neg (Nat.not_le.2 hshort)]

theorem NamedIn.steps_eq (h : fs.NamedIn path loc name) (hslash : Path.endsInSlash path = false) :
    steps path = front path ++ [name] := by
  rw [steps, h.parts, hslash]
  simp

theorem NamedIn.locate_put_eq {bytes : ByteArray} (h : fs.NamedIn path loc name)
    (hslash : Path.endsInSlash path = false) :
    (fs.put l (.file bytes)).locate path =
      (fs.put l (.file bytes)).walk false maxLinks (fs.start path) (front path ++ [name]) := by
  have hstart : (fs.put l (.file bytes)).start path = fs.start path := rfl
  rw [FileSystem.locate, h.check, hstart, h.steps_eq hslash]
  rfl

/-- Where a file is put on the way to the directory, the path leads nowhere. -/
theorem NamedIn.exists_error_locate_put (h : fs.NamedIn path loc name) (bytes : ByteArray)
    (hslash : Path.endsInSlash path = false) (hl : l ≠ [])
    (hmem : l ∈ fs.trail maxLinks (fs.start path) (front path)) :
    ∃ error, (fs.put l (.file bytes)).locate path = .error error := by
  rw [h.locate_put_eq hslash]
  exact h.reaches.exists_error_put hl hmem (by simp)

/-- A file that was put in the directory is found by the path, unless the way to the directory
leads through it. -/
theorem NamedIn.locate_put_iff {bytes : ByteArray} (h : fs.NamedIn path loc name)
    (hfits : Fits name) (hslash : Path.endsInSlash path = false) :
    (fs.put (loc ++ [name]) (.file bytes)).locate path =
        .ok (.taken (loc ++ [name]) (.file bytes)) ↔
      loc ++ [name] ∉ fs.trail maxLinks (fs.start path) (front path) := by
  constructor
  · intro hfound hmem
    obtain ⟨error, herror⟩ := h.exists_error_locate_put bytes hslash (by simp) hmem
    rw [herror] at hfound
    cases hfound
  · intro hmem
    have hreaches : (fs.put (loc ++ [name]) (.file bytes)).Reaches maxLinks (fs.start path)
        (front path) loc := by
      rw [reaches_iff_walk, walk_congr, h.reaches.walk_eq]
      intro l hl
      rw [entryAt?_put (by simp), if_neg]
      rintro rfl
      exact hmem hl
    obtain ⟨left, hleft⟩ := hreaches.exists_walk_append
    rw [h.locate_put_eq hslash, hleft false [name] (by simp) (by simpa using h.isName.ne_empty)]
    exact walk_file h.isName hfits (by rw [entryAt?_put (by simp), if_pos rfl])

end FileSystem

end PageMend.Storage
