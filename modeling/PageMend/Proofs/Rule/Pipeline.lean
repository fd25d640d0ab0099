import PageMend.Proofs.Rule.Commute

/-!
# Pipelines

A pipeline activates the known rules that have an enabled entry, each at the first one
(`mend_pipeline`). It can be read entry by entry (`activeRules_append`): an entry that is disabled
or unknown, or behind an enabled one of the same name, is inert (`RuleEntry.Inert`), and any number
of such entries can be put in anywhere (`activeRules_padded`).
-/

namespace PageMend

variable {pipeline padded front back : List RuleEntry} {e : RuleEntry} {name : String} {r : Rule}

theorem Rule.named?_eq_some_iff : Rule.named? name = some r ↔ r.name = name := by
  constructor
  · intro h
    simpa using List.find?_some h
  · rintro rfl
    exact Rule.named?_name r

theorem RuleEntry.rule?_eq_some_iff : e.rule? = some r ↔ e.enabled = true ∧ r.name = e.name := by
  rw [RuleEntry.rule?, ← Rule.named?_eq_some_iff]
  split <;> simp [*]

/-- A rule is active if it has an enabled entry. -/
theorem mem_activeRules :
    r ∈ activeRules pipeline ↔ ∃ e ∈ pipeline, e.enabled = true ∧ r.name = e.name := by
  rw [activeRules, List.mem_eraseDups, List.mem_filterMap]
  simp only [RuleEntry.rule?_eq_some_iff]

/-! ### Entry by entry -/

/-- The active rules behind one more entry. -/
def activate (rs : List Rule) (e : RuleEntry) : List Rule :=
  match e.rule? with
  | none => rs
  | some r => if r ∈ rs then rs else rs ++ [r]

theorem activeRules_concat (pipeline : List RuleEntry) (e : RuleEntry) :
    activeRules (pipeline ++ [e]) = activate (activeRules pipeline) e := by
  rw [activate, activeRules, activeRules, List.filterMap_append, List.eraseDups_append]
  generalize pipeline.filterMap RuleEntry.rule? = rs
  cases he : e.rule? with
  | none => simp [he, List.removeAll]
  | some r =>
    rw [List.filterMap_cons_some he, List.filterMap_nil, List.removeAll]
    by_cases hr : r ∈ rs
    · simp [hr]
    · simp [hr, List.eraseDups_cons]

/-- The active rules of a pipeline are found entry by entry. -/
theorem activeRules_append (front back : List RuleEntry) :
    activeRules (front ++ back) = back.foldl activate (activeRules front) := by
  induction back generalizing front with
  | nil => rw [List.append_nil, List.foldl_nil]
  | cons e back ih =>
    rw [List.append_cons, ih, activeRules_concat, List.foldl_cons]

/-! ### Inert entries -/

/-- Behind those entries an entry changes nothing: it is disabled, or it names no rule, or it
repeats an enabled entry. -/
def RuleEntry.Inert (front : List RuleEntry) (e : RuleEntry) : Prop :=
  e.enabled = false ∨ (∀ r : Rule, r.name ≠ e.name) ∨
    ∃ earlier ∈ front, earlier.enabled = true ∧ earlier.name = e.name

theorem activate_inert (h : e.Inert front) :
    activate (activeRules front) e = activeRules front := by
  unfold activate
  split
  · rfl
  · rename_i r hr
    obtain ⟨henabled, hname⟩ := RuleEntry.rule?_eq_some_iff.1 hr
    apply if_pos
    rcases h with hdisabled | hunknown | ⟨earlier, hmem, hearlier, hsame⟩
    · rw [hdisabled] at henabled
      cases henabled
    · exact absurd hname (hunknown r)
    · exact mem_activeRules.2 ⟨earlier, hmem, hearlier, hname.trans hsame.symm⟩

/-- A pipeline with inert entries put in, one after the other and each anywhere. -/
inductive Padded (pipeline : List RuleEntry) : List RuleEntry → Prop
  | refl : Padded pipeline pipeline
  | insert (front : List RuleEntry) (e : RuleEntry) (back : List RuleEntry)
      (h : Padded pipeline (front ++ back)) (hinert : e.Inert front) :
      Padded pipeline (front ++ e :: back)

/-- Inert entries change nothing. -/
theorem activeRules_padded (h : Padded pipeline padded) :
    activeRules padded = activeRules pipeline := by
  induction h with
  | refl => rfl
  | insert front e back _ hinert ih =>
    rw [← ih, activeRules_append, List.foldl_cons, activate_inert hinert, ← activeRules_append]

/-! ### Order -/

/-- Where the first enabled entry of a name stands. -/
def firstEntry (pipeline : List RuleEntry) (name : String) : Nat :=
  pipeline.findIdx fun e => e.enabled && e.name == name

theorem firstEntry_lt_iff :
    firstEntry pipeline r.name < pipeline.length ↔ r ∈ activeRules pipeline := by
  rw [firstEntry, List.findIdx_lt_length, mem_activeRules]
  simp only [Bool.and_eq_true, beq_iff_eq, @eq_comm _ r.name]

theorem firstEntry_append (hr : r ∈ activeRules front) :
    firstEntry (front ++ back) r.name = firstEntry front r.name := by
  rw [firstEntry, List.findIdx_append]
  exact if_pos (firstEntry_lt_iff.2 hr)

theorem length_le_firstEntry (hr : r ∉ activeRules front) :
    front.length ≤ firstEntry (front ++ back) r.name := by
  rw [firstEntry, List.findIdx_append]
  exact (Nat.le_add_left _ _).trans_eq (if_neg (mt firstEntry_lt_iff.1 hr)).symm

/-- The active rules stand in the order of their first enabled entries. -/
theorem pairwise_firstEntry (pipeline : List RuleEntry) :
    (activeRules pipeline).Pairwise fun r s =>
      firstEntry pipeline r.name < firstEntry pipeline s.name := by
  induction pipeline using List.reverseRecOn with
  | nil => exact List.Pairwise.nil
  | append_singleton pipeline e ih =>
    have hold : (activeRules pipeline).Pairwise fun r s =>
        firstEntry (pipeline ++ [e]) r.name < firstEntry (pipeline ++ [e]) s.name :=
      ih.imp_of_mem fun hr hs hlt => by rwa [firstEntry_append hr, firstEntry_append hs]
    rw [activeRules_concat, activate]
    split
    · exact hold
    · rename_i r _
      split
      · exact hold
      · rename_i hr
        refine List.pairwise_append.2 ⟨hold, List.pairwise_singleton _ _, fun s hs t ht => ?_⟩
        obtain rfl := List.mem_singleton.1 ht
        calc
          firstEntry (pipeline ++ [e]) s.name = firstEntry pipeline s.name := firstEntry_append hs
          _ < pipeline.length := firstEntry_lt_iff.2 hs
          _ ≤ firstEntry (pipeline ++ [e]) t.name := length_le_firstEntry hr

/-! ### A run -/

theorem labelFor_name (hr : r ∈ activeRules pipeline) :
    labelFor pipeline r.name = some r.label := by
  have hfind : (activeRules pipeline).find? (·.name = r.name) = some r := by
    cases hfound : (activeRules pipeline).find? (·.name = r.name) with
    | none => exact absurd (List.find?_eq_none.1 hfound r hr) (by simp)
    | some s =>
      have hname : s.name = r.name := by simpa using List.find?_some hfound
      rw [Rule.name_injective hname]
  rw [labelFor, hfind]
  rfl

/-- The active rules of a pipeline are the known ones that have an enabled entry, each once, in the
order of their first enabled entries. Entries that are disabled, unknown or repeated change nothing
on any page. The rules that fire on a page are some of the active ones, in their order, and all have
labels. -/
theorem mend_pipeline (pipeline : List RuleEntry) :
    (∀ name, name ∈ (activeRules pipeline).map Rule.name ↔
      (∃ r : Rule, r.name = name) ∧ ∃ e ∈ pipeline, e.enabled = true ∧ e.name = name) ∧
    ((activeRules pipeline).map Rule.name).Nodup ∧
    ((activeRules pipeline).map Rule.name).Pairwise (fun a b =>
      firstEntry pipeline a < firstEntry pipeline b) ∧
    (∀ padded, Padded pipeline padded → ∀ (config : Config) (page : Page),
      mend { config with pipeline := padded } page = mend { config with pipeline } page) ∧
    ∀ (config : Config) (page : Page),
      let fired := (mend { config with pipeline } page).2.map Rule.name
      fired.Sublist ((activeRules pipeline).map Rule.name) ∧ fired.Nodup ∧
        ∀ name ∈ fired, ∃ label, labelFor pipeline name = some label := by
  have hnodup : (activeRules pipeline).Nodup := nodup_activeRules pipeline
  have hinjective : Function.Injective Rule.name := fun _ _ => Rule.name_injective
  refine ⟨fun name => ?_, hnodup.map hinjective,
    List.pairwise_map.2 (pairwise_firstEntry pipeline), fun padded h config page => ?_,
    fun config page => ?_⟩
  · simp only [List.mem_map, mem_activeRules]
    constructor
    · rintro ⟨r, ⟨e, hmem, henabled, hname⟩, rfl⟩
      exact ⟨⟨r, rfl⟩, e, hmem, henabled, hname.symm⟩
    · rintro ⟨⟨r, rfl⟩, e, hmem, henabled, hname⟩
      exact ⟨r, ⟨e, hmem, henabled, hname.symm⟩, rfl⟩
  · simp only [mend, applyRules_pipeline, activeRules_padded h]
  · have hsublist : (mend { config with pipeline } page).2.Sublist (activeRules pipeline) :=
      sublist_applyRules _ _ page
    refine ⟨hsublist.map _, (hsublist.nodup hnodup).map hinjective, fun name hname => ?_⟩
    obtain ⟨r, hr, rfl⟩ := List.mem_map.1 hname
    exact ⟨r.label, labelFor_name (hsublist.subset hr)⟩

/-- A pipeline that runs one rule, and one with a disabled, an unknown and a repeated entry more. -/
theorem mend_pipeline_sample :
    let entry : RuleEntry := ⟨"ImportStatementRemoval", true⟩
    let padded : List RuleEntry := [⟨"TitleSuffixStrip", false⟩, ⟨"Bogus", true⟩, entry, entry]
    Padded [entry] padded ∧ "ImportStatementRemoval" ∈ (activeRules padded).map Rule.name ∧
      "TitleSuffixStrip" ∉ (activeRules padded).map Rule.name ∧
      ∀ (config : Config) (page : Page), mend { config with pipeline := padded } page =
        mend { config with pipeline := [entry] } page := by
  intro entry padded
  have hpadded : Padded [entry] padded := by
    have hrepeated : entry.Inert [entry] := .inr (.inr ⟨entry, by simp, rfl, rfl⟩)
    have hunknown : RuleEntry.Inert [] ⟨"Bogus", true⟩ :=
      .inr (.inl fun r => by cases r <;> decide)
    exact .insert [] _ _ (.insert [] _ _ (.insert [entry] _ [] .refl hrepeated) hunknown) (.inl rfl)
  obtain ⟨hactive, -, -, -, -⟩ := mend_pipeline padded
  obtain ⟨-, -, -, hmend, -⟩ := mend_pipeline [entry]
  refine ⟨hpadded, (hactive _).2 ⟨⟨.importStatement, rfl⟩, entry, ?_, rfl, rfl⟩, fun hmem => ?_,
    hmend padded hpadded⟩
  · simp [padded]
  · obtain ⟨-, e, he, henabled, hname⟩ := (hactive _).1 hmem
    revert e
    decide

end PageMend
