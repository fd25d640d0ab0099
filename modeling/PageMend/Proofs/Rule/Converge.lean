import PageMend.Proofs.Rule.Modified

/-!
# Running the rules over and over

The rules may run on a page in memory as often as one likes (`mendTimes`). Each firing takes as many
bytes out of what is written of the page as the marker of its rule has, and so at least as many as
the shorter of the two (`Config.leastMarker`). The bytes of the page are enough for so many firings
and no more (`firings_le`).

A run in which no rule fires leaves the page as it is, so all runs behind it are like it
(`Idle.mendTimes`). There is one among the first runs, as each of the others uses up bytes
(`exists_idle`).
-/

namespace PageMend

open Markup

/-- Runs the rules on a page `n` times, one run behind the other, and tells for each run which rules
fired. -/
def mendTimes (config : Config) (n : Nat) (page : Page) : Page × List (List Rule) :=
  mendEach (List.replicate n config) page

/-- How many times a rule fires in `n` runs. -/
def firings (config : Config) (n : Nat) (page : Page) : Nat :=
  (mendTimes config n page).2.flatten.length

/-- No rule fires on the page, and a run leaves it as it is. -/
def Idle (config : Config) (page : Page) : Prop := mend config page = (page, [])

/-- The number of bytes in the shorter of the two markers. -/
def Config.leastMarker (config : Config) : Nat :=
  min (byteLength config.titleSuffix.marker.toList)
    (byteLength config.importStatement.marker.toList)

section
variable {config : Config} {page : Page}

theorem Config.leastMarker_le (config : Config) (r : Rule) :
    config.leastMarker ≤ byteLength (r.marker config).toList := by
  cases r with
  | titleSuffix => exact Nat.min_le_left _ _
  | importStatement => exact Nat.min_le_right _ _

theorem Config.leastMarker_pos (hc : config.check = .ok ()) : 0 < config.leastMarker :=
  Nat.lt_min.2 ⟨Rule.one_le_byteLength_marker hc .titleSuffix,
    Rule.one_le_byteLength_marker hc .importStatement⟩

/-! ## One run more -/

theorem mendEach_append (configs others : List Config) (page : Page) :
    mendEach (configs ++ others) page =
      ((mendEach others (mendEach configs page).1).1,
        (mendEach configs page).2 ++ (mendEach others (mendEach configs page).1).2) := by
  induction configs generalizing page with
  | nil => rfl
  | cons config configs ih =>
    simp only [List.cons_append, mendEach]
    rw [ih]

theorem mendTimes_add (n k : Nat) :
    mendTimes config (n + k) page =
      ((mendTimes config k (mendTimes config n page).1).1,
        (mendTimes config n page).2 ++ (mendTimes config k (mendTimes config n page).1).2) := by
  rw [mendTimes, List.replicate_add, mendEach_append]
  rfl

theorem firings_succ (n : Nat) :
    firings config (n + 1) page =
      firings config n page + (mend config (mendTimes config n page).1).2.length := by
  rw [firings, mendTimes_add, List.flatten_append, List.length_append]
  show _ + [(mend config (mendTimes config n page).1).2].flatten.length = _
  rw [List.flatten_singleton]
  rfl

/-! ## Runs in which no rule fires -/

theorem idle_iff : Idle config page ↔ (mend config page).2 = [] :=
  ⟨fun h => congrArg Prod.snd h, fun h => Prod.ext (mend_eq_self h) h⟩

/-- Behind a run in which no rule fires, all is as it was. -/
theorem Idle.mendTimes (h : Idle config page) (n : Nat) : (mendTimes config n page).1 = page := by
  induction n with
  | zero => rfl
  | succ n ih =>
    rw [mendTimes_add, ih]
    exact congrArg Prod.fst h

/-- As long as no run is idle, each has a firing. -/
theorem le_firings {n : Nat} (h : ∀ k < n, ¬ Idle config (mendTimes config k page).1) :
    n ≤ firings config n page := by
  induction n with
  | zero => exact Nat.zero_le _
  | succ n ih =>
    have hbefore := ih fun k hk => h k (Nat.lt_succ_of_lt hk)
    have hlast := List.length_pos_iff.2 (mt idle_iff.2 (h n (Nat.lt_succ_self n)))
    rw [firings_succ]
    omega

/-! ## Bytes used up -/

theorem shaped_mendTimes (hc : config.check = .ok ()) (h : page.tree.Shaped) (n : Nat) :
    (mendTimes config n page).1.tree.Shaped :=
  shaped_mendEach (fun _ hmem => List.eq_of_mem_replicate hmem ▸ hc) h

/-- The bytes of a page are enough for so many firings. -/
theorem firings_le (hc : config.check = .ok ()) (h : page.tree.Shaped) (n : Nat) :
    firings config n page ≤ byteLength page.serialize.toList / config.leastMarker := by
  rw [Nat.le_div_iff_mul_le (Config.leastMarker_pos hc)]
  have hle := @byteLength_mendEach (List.replicate n config) page config.leastMarker
    (fun _ hmem => List.eq_of_mem_replicate hmem ▸ hc)
    (fun _ hmem => List.eq_of_mem_replicate hmem ▸ config.leastMarker_le) h
  exact Nat.le_trans (Nat.le_add_left _ _) hle

/-- One of the first runs is idle: there are not enough bytes for all of them to fire. -/
theorem exists_idle (hc : config.check = .ok ()) (h : page.tree.Shaped) :
    ∃ k ≤ byteLength page.serialize.toList / config.leastMarker,
      Idle config (mendTimes config k page).1 := by
  by_contra hnone
  push Not at hnone
  have hfirings := le_firings fun k hk => hnone k (Nat.lt_succ_iff.1 hk)
  exact Nat.not_succ_le_self _ (Nat.le_trans hfirings (firings_le hc h _))

/-- Once there have been as many firings as the bytes of the page are enough for, a run is idle. -/
theorem idle_of_firings_eq (hc : config.check = .ok ()) (h : page.tree.Shaped) {n : Nat}
    (hall : firings config n page = byteLength page.serialize.toList / config.leastMarker) :
    Idle config (mendTimes config n page).1 := by
  have hnext := firings_le hc h (n + 1)
  rw [firings_succ, hall] at hnext
  exact idle_iff.2 (List.length_eq_zero_iff.1 (by omega))

/-- Whatever runs and rules came before, a rule that fires on a page that was read makes what is
written of it shorter by the marker of the rule at least. So in any number of runs, as many rules
fire as the shorter marker fits into the bytes of the page, and no more. One of the first runs is
idle, and so is each run once that number is reached. From an idle run on nothing changes. -/
theorem mend_converges (hc : config.check = .ok ()) {text : String}
    (hp : parse text = .ok page.tree) :
    let bytes (p : Page) := byteLength p.serialize.toList
    let now (n : Nat) := (mendTimes config n page).1
    let most := bytes page / config.leastMarker
    (∀ (n : Nat) (rs : List Rule) (r : Rule),
      let mid := (applyRules config rs (now n)).1
      (r.apply config mid).2 = true →
        bytes (r.apply config mid).1 + byteLength (r.marker config).toList ≤ bytes mid) ∧
      0 < config.leastMarker ∧ (∀ n, firings config n page ≤ most) ∧
      (∃ k ≤ most, Idle config (now k)) ∧
      (∀ n, firings config n page = most → Idle config (now n)) ∧
      ∀ n, Idle config (now n) → ∀ later ≥ n,
        Idle config (now later) ∧ now later = now n ∧
          firings config later page = firings config n page := by
  intro bytes now most
  have h : page.tree.Shaped := (sound_of_parse hp).shaped
  refine ⟨?_, Config.leastMarker_pos hc, firings_le hc h, exists_idle hc h,
    fun n => idle_of_firings_eq hc h, fun n hidle later hlater => ?_⟩
  · intro n rs r mid hfired
    have hmid : mid.tree.Shaped := shaped_applyRules hc (shaped_mendTimes hc h n)
    exact Rule.byteLength_apply hc hmid hfired
  · induction later, hlater using Nat.le_induction with
    | base => exact ⟨hidle, rfl, rfl⟩
    | succ later _ ih =>
      obtain ⟨hlast, hsame, hcount⟩ := ih
      have hnext : now (later + 1) = now later := by
        show (mendTimes config (later + 1) page).1 = _
        rw [mendTimes_add]
        exact hlast.mendTimes 1
      refine ⟨hnext ▸ hlast, hnext.trans hsame, ?_⟩
      rw [firings_succ, idle_iff.1 hlast, hcount]
      rfl

end

/-- Two tables take two runs, and from the third on nothing changes. -/
theorem mend_converges_two_tables :
    let config : Config :=
      { titleSuffix := { marker := "M" }, importStatement := { marker := "In:" } }
    let source := "<title>MaM</title><table><td>In:</td></table><table><td>In:</td></table>"
    ∃ t, parse source = .ok t ∧
      let page : Page := ⟨"", source, t, false⟩
      (mendTimes config 3 page).2 = [[.titleSuffix, .importStatement], [.importStatement], []] ∧
        ∀ n ≥ 2, Idle config (mendTimes config n page).1 ∧ firings config n page = 3 := by
  intro config source
  have hrun : ((parse source).toOption.map fun t =>
      (mendTimes config 3 ⟨"", source, t, false⟩).2) =
      some [[.titleSuffix, .importStatement], [.importStatement], []] := by
    decide +kernel
  obtain ⟨t, hp, hrun⟩ := exists_ok_of_map hrun
  have hcheck : Config.check
      { titleSuffix := { marker := "M" }, importStatement := { marker := "In:" } } = .ok () := by
    rfl
  have hstill := (@mend_converges config ⟨"", source, t, false⟩ hcheck source hp).2.2.2.2.2
  have hfired : (mendTimes config 2 ⟨"", source, t, false⟩).2 ++
      [(mend config (mendTimes config 2 ⟨"", source, t, false⟩).1).2] =
        [[.titleSuffix, .importStatement], [.importStatement]] ++ [[]] := by
    rw [mendTimes_add 2 1] at hrun
    exact hrun
  obtain ⟨hfirst, hlast⟩ := List.append_inj' hfired rfl
  have hidle : Idle config (mendTimes config 2 ⟨"", source, t, false⟩).1 :=
    idle_iff.2 (List.singleton_inj.1 hlast)
  refine ⟨t, hp, hrun, fun n hn => ?_⟩
  obtain ⟨hthen, -, hcount⟩ := hstill 2 hidle n hn
  exact ⟨hthen, hcount.trans (congrArg (fun rss => rss.flatten.length) hfirst)⟩

end PageMend
