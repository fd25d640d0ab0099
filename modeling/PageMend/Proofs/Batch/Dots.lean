import PageMend.Proofs.Batch.Isolation

/-!
# What a run prints

A run prints its dots one by one, between the files that it mends, and ends the line behind them if
there is one. `runShown` is the run with what it has printed. The two do not disturb each other
(`foldl_showStep`): the run does what it does without printing, and prints what `dots` tells from
the number of its files, whatever becomes of each of them (`runShown_eq`).

A dot is due at every multiple of the step, so there are as many dots as multiples
(`length_filter_multiples`). The step is the sixteenth part of the files, rounded down, and this
bounds the dots: each file has one up to sixteen files, and then there are sixteen dots and at most
fifteen more, which only the rounding makes (`div_dotStep`).
-/

namespace PageMend.Batch

open Storage

/-! ## The loop with its dots -/

/-- Mending a file prints nothing, and printing a dot mends nothing. -/
theorem foldl_showStep (config : Config) (loader : Loader) (stamp : String) (files : Nat)
    (entries : List (String × Nat)) (s : Shown) :
    entries.foldl (Shown.step config loader stamp files) s =
      { progress := (entries.map Prod.fst).foldl (Progress.step config loader stamp) s.progress
        printed := s.printed ++
          ((entries.map Prod.snd).filter (isDotDue config files)).map fun _ => '.' } := by
  induction entries generalizing s with
  | nil => simp
  | cons entry entries ih =>
    rw [List.foldl_cons, ih]
    by_cases hdue : isDotDue config files entry.2 = true
    · simp [Shown.step, hdue]
    · simp [Shown.step, hdue]

/-- The loop over some files ends with what they make of the run and with the dots that are due. -/
theorem output_foldl_showStep (config : Config) (loader : Loader) (stamp : String)
    (paths : List String) (p : Progress) :
    let s := paths.zipIdx.foldl (Shown.step config loader stamp paths.length) { progress := p }
    s.progress = paths.foldl (Progress.step config loader stamp) p ∧
      s.output = dots config.progress paths.length := by
  intro s
  have hs : s = _ := foldl_showStep config loader stamp paths.length paths.zipIdx { progress := p }
  rw [List.zipIdx_map_fst, List.zipIdx_map_snd, ← List.range_eq_range'] at hs
  refine ⟨by rw [hs], ?_⟩
  rw [hs, Shown.output, dots]
  cases hprogress : config.progress with
  | false =>
    have hnone : (List.range paths.length).filter (isDotDue config paths.length) = [] := by
      simp [isDotDue, hprogress]
    rw [hnone]
    rfl
  | true =>
    have hdue : isDotDue config paths.length =
        fun i => decide ((i + 1) % dotStep paths.length = 0) := by
      funext i
      simp [isDotDue, hprogress]
    rw [hdue, List.nil_append, List.isEmpty_map]
    rfl

/-- A run does what it does without printing, and prints what the number of its files tells. -/
theorem runShown_eq (config : Config) (loader : Loader) (stamp : String) (startedAt : Timestamp)
    (fs : FileSystem) (directory : String) :
    runShown config loader stamp startedAt fs directory =
      (run config loader stamp startedAt fs directory).map fun (fs', s) =>
        (fs', s, dots config.progress s.filesScanned) := by
  cases hpaths : candidates config fs directory with
  | error error => simp [runShown, run, hpaths, bind, Except.bind, Except.map]
  | ok paths =>
    obtain ⟨hprogress, houtput⟩ := output_foldl_showStep config loader stamp paths { fs }
    simp only [runShown, run, hpaths, bind, Except.bind, pure, Except.pure, Except.map, hprogress,
      houtput]
    rfl

/-- The files of a run are its candidates, whatever becomes of them. -/
theorem filesScanned_run (config : Config) (loader : Loader) (stamp : String)
    (startedAt : Timestamp) (fs : FileSystem) (directory : String) :
    (run config loader stamp startedAt fs directory).map (fun (_, s) => s.filesScanned) =
      (candidates config fs directory).map List.length := by
  cases hpaths : candidates config fs directory with
  | error error => simp [run, hpaths, bind, Except.bind, Except.map]
  | ok paths =>
    simp only [run, hpaths, bind, Except.bind, pure, Except.pure, Except.map]
    rfl

/-! ## How many dots -/

/-- Among the first numbers are as many multiples as the quotient says. -/
theorem length_filter_multiples (step n : Nat) :
    ((List.range n).filter fun i => (i + 1) % step = 0).length = n / step := by
  induction n with
  | zero => simp
  | succ n ih =>
    rw [List.range_succ, List.filter_append, List.length_append, ih, Nat.succ_div]
    by_cases hdvd : step ∣ n + 1
    · simp [hdvd, Nat.mod_eq_zero_of_dvd hdvd]
    · simp [hdvd, mt Nat.dvd_of_mod_eq_zero hdvd]

theorem dotStep_pos (n : Nat) : 0 < dotStep n :=
  Nat.div_pos (Nat.le_max_right n 16) (by decide)

theorem dotStep_of_le {n : Nat} (h : 16 ≤ n) : dotStep n = n / 16 := by
  rw [dotStep, Nat.max_eq_left h]

/-- There is a dot for each multiple of the step, and a line break if there is a dot. -/
theorem dots_true (n : Nat) :
    dots true n = String.ofList (List.replicate (n / dotStep n) '.') ++
      if n / dotStep n = 0 then "" else "\n" := by
  have hlength := length_filter_multiples (dotStep n) n
  rw [dots, if_pos rfl, ← hlength]
  generalize (List.range n).filter (fun i => (i + 1) % dotStep n = 0) = marks
  cases marks with
  | nil => rfl
  | cons i marks =>
    show String.ofList ((i :: marks).map fun _ => '.') ++ "\n" = _
    rw [List.map_const']
    rfl

/-- Up to sixteen files a dot is due at each of them. -/
theorem dotStep_of_lt {n : Nat} (h : n < 16) : dotStep n = 1 := by
  rw [dotStep, Nat.max_eq_right (Nat.le_of_lt h)]

/-- From sixteen files on there are sixteen dots, and one more for each step that fits into what the
sixteenth part leaves over. -/
theorem div_dotStep {n : Nat} (h : 16 ≤ n) : n / dotStep n = 16 + n % 16 / dotStep n := by
  have hsplit : n = dotStep n * 16 + n % 16 := by
    rw [dotStep_of_le h]
    omega
  calc n / dotStep n = (dotStep n * 16 + n % 16) / dotStep n := congrArg (· / dotStep n) hsplit
    _ = 16 + n % 16 / dotStep n := Nat.mul_add_div (dotStep_pos n) 16 (n % 16)

/-- A run does what it does without printing, and what it prints is told by the number of its
candidates, whatever becomes of them. It prints a dot for each multiple of its step, and ends the
line if it has printed one: a dot for each file if these are less than sixteen, else sixteen up to
thirty-one, and sixteen from two hundred and fifty-six files on. If it is not to print, it prints
nothing. -/
theorem runShown_prints (config : Config) (loader : Loader) (stamp : String)
    (startedAt : Timestamp) (fs : FileSystem) (directory : String) :
    (runShown config loader stamp startedAt fs directory =
      (run config loader stamp startedAt fs directory).map fun (fs', s) =>
        (fs', s, dots config.progress s.filesScanned)) ∧
      (run config loader stamp startedAt fs directory).map (fun (_, s) => s.filesScanned) =
        (candidates config fs directory).map List.length ∧
      ∀ n, 0 < dotStep n ∧
        dots true n = String.ofList (List.replicate (n / dotStep n) '.') ++
          (if n / dotStep n = 0 then "" else "\n") ∧
        (n < 16 → n / dotStep n = n) ∧
        (16 ≤ n → 16 ≤ n / dotStep n ∧ n / dotStep n ≤ 31) ∧
        (256 ≤ n → n / dotStep n = 16) ∧
        dots false n = "" := by
  refine ⟨runShown_eq config loader stamp startedAt fs directory,
    filesScanned_run config loader stamp startedAt fs directory, fun n => ?_⟩
  refine ⟨dotStep_pos n, dots_true n, ?few, ?some, ?many, rfl⟩
  case few =>
    intro h
    rw [dotStep_of_lt h, Nat.div_one]
  case some =>
    intro h
    have hrest : n % 16 / dotStep n ≤ 15 :=
      Nat.le_trans (Nat.div_le_self _ _) (Nat.le_of_lt_succ (Nat.mod_lt n (by decide)))
    rw [div_dotStep h]
    exact ⟨Nat.le_add_right 16 _, Nat.add_le_add_left hrest 16⟩
  case many =>
    intro h
    have hstep : 16 ≤ dotStep n := by
      rw [dotStep_of_le (by omega)]
      omega
    have hrest : n % 16 / dotStep n = 0 := Nat.div_eq_of_lt (by omega)
    rw [div_dotStep (by omega), hrest]

/-- Five files print five dots, three hundred print sixteen, and the run over the small directory
prints a dot for each of its pages. -/
theorem runShown_prints_sixteen :
    5 / dotStep 5 = 5 ∧ (16 ≤ 31 / dotStep 31 ∧ 31 / dotStep 31 ≤ 31) ∧
      dots true 300 = "................\n" ∧
      runShown {} .standard "0" (.ofUnixTime 0 0) sample "pages" =
        (run {} .standard "0" (.ofUnixTime 0 0) sample "pages").map fun (fs, s) =>
          (fs, s, dots true s.filesScanned) := by
  obtain ⟨hrun, -, hprints⟩ := runShown_prints {} .standard "0" (.ofUnixTime 0 0) sample "pages"
  obtain ⟨-, hdots, -, -, hmany, -⟩ := hprints 300
  refine ⟨(hprints 5).2.2.1 (by decide), (hprints 31).2.2.2.1 (by decide), ?_, hrun⟩
  rw [hdots, hmany (by decide)]
  rfl

end PageMend.Batch
