import PageMend.Proofs.Markup.Around
import PageMend.Proofs.Rule.Reapply

/-!
# Whether a page was modified

The flag of a page is set by what the rules report, and no text is compared. It tells the truth all
the same, because a rule that fires takes its marker out of what is written of the page: each
firing makes the page shorter (`Rule.byteLength_apply`), so no later one brings back what was there
before, and a rule that does not fire edits nothing (`Rule.apply_eq_self`).

The bytes are counted over a whole run, and over any number of runs on one page (`mendEach`): each
firing loses as many as its marker has (`byteLength_mendEach`).
-/

namespace PageMend

open Markup

/-- Applies several configurations to a page, one behind the other, and tells for each which rules
fired. -/
def mendEach : List Config → Page → Page × List (List Rule)
  | [], page => (page, [])
  | config :: configs, page =>
    let (page, fired) := mend config page
    let (page, others) := mendEach configs page
    (page, fired :: others)

/-! ## Bytes lost to a rule -/

namespace Rule

/-- The text that a rule looks for. -/
def marker (config : Config) : Rule → String
  | titleSuffix => config.titleSuffix.marker
  | importStatement => config.importStatement.marker

section
variable {config : Config} {page : Page}

theorem marker_ne_empty (hc : config.check = .ok ()) (r : Rule) : r.marker config ≠ "" := by
  obtain ⟨htitle, himport⟩ := Config.checkMarker_of_check hc
  cases r with
  | titleSuffix => exact ne_empty_of_checkMarker htitle
  | importStatement => exact ne_empty_of_checkMarker himport

theorem one_le_byteLength_marker (hc : config.check = .ok ()) (r : Rule) :
    1 ≤ byteLength (r.marker config).toList :=
  byteLength_pos (mt String.toList_eq_nil_iff.1 (marker_ne_empty hc r))

/-- The text of an element takes no more bytes than what is written between its tags. -/
theorem byteLength_text_le (h : page.tree.Shaped) {id n : Nat} {tag : String}
    (hn : n ∈ page.tree.elementsNamed id tag) :
    byteLength (page.tree.text n).toList ≤ byteLength (page.tree.forest n).spelling := by
  obtain ⟨-, e, he, -⟩ := element_of_mem_elementsNamed hn
  rw [Tree.toList_text (Tree.text?_of_element? he)]
  exact byteLength_le_of_sublist (h.text_sublist_spelling n)

/-- A rule that fires makes the page shorter by its marker. -/
theorem byteLength_apply (hc : config.check = .ok ()) (h : page.tree.Shaped) {r : Rule}
    (hfired : (r.apply config page).2 = true) :
    byteLength (r.apply config page).1.serialize.toList + byteLength (r.marker config).toList ≤
      byteLength page.serialize.toList := by
  cases r with
  | titleSuffix =>
    have hne : config.titleSuffix.marker ≠ "" := marker_ne_empty hc titleSuffix
    obtain ⟨id, hid, hleaf, hmarker, htree, hresult⟩ := stripTitleSuffix_cases h hne hfired
    -- the title loses the marker, and all markup in it
    have htitle : byteLength (retitled config.titleSuffix page).tree.serialize.toList +
        byteLength config.titleSuffix.marker.toList ≤ byteLength page.serialize.toList := by
      have hmem : id ∈ page.tree.elementsNamed Tree.root "title" := List.mem_of_head? hid
      have hset := h.byteLength_setText (element_of_mem_elementsNamed hmem).1 hleaf
        ((page.tree.text id).replaceEach config.titleSuffix.marker "")
      have htext := byteLength_text_le h hmem
      have hloss := byteLength_replaceEach_le hne hmarker
      rw [htree]
      show _ ≤ byteLength page.tree.serialize.toList
      omega
    -- the heading gains nothing
    have hheading : byteLength (titleSuffix.apply config page).1.serialize.toList ≤
        byteLength (retitled config.titleSuffix page).tree.serialize.toList := by
      have hshaped : (retitled config.titleSuffix page).tree.Shaped := by
        rw [htree]
        exact shaped_setText_title h hid hleaf _
      rcases hresult with ⟨-, hresult⟩ | ⟨heading, -, hresult⟩
      · exact Nat.le_of_eq (congrArg (fun p : Page => byteLength p.serialize.toList) hresult)
      · have hstripped := hshaped.replaceText heading config.titleSuffix.marker ""
        show byteLength (stripTitleSuffix config.titleSuffix page).1.tree.serialize.toList ≤ _
        rw [hresult, Tree.toList_serialize hstripped.root, Tree.toList_serialize hshaped.root]
        exact hshaped.linked.byteLength_replaceText_le ..
    exact Nat.le_trans (Nat.add_le_add_right hheading _) htitle
  | importStatement =>
    obtain ⟨row, hrow⟩ := exists_importRow_of_fires hfired
    obtain ⟨hon, -, table, cell, hcell, hbelow, hmarker⟩ := importRow_cases h.proper hrow
    obtain ⟨-, htree⟩ := removeImportStatement_fires h.proper hrow
    have hdetach := h.byteLength_detach hon
    -- the row that is gone had the cell, and the cell the marker
    have hloss := byteLength_le_of_hasInfix hmarker
    have htext := byteLength_text_le h hcell
    have hcellRow : byteLength (page.tree.forest cell).spelling ≤
        byteLength (page.tree.write row).toList :=
      Nat.le_trans (h.byteLength_forest_le cell)
        (Nat.le_trans (h.byteLength_write_le hbelow) (h.byteLength_forest_le row))
    show byteLength (removeImportStatement config.importStatement page).1.tree.serialize.toList +
      byteLength config.importStatement.marker.toList ≤ byteLength page.tree.serialize.toList
    rw [htree]
    omega

/-- A rule fires just when what is written of the page is not what it was. -/
theorem apply_fires_iff_serialize_ne (hc : config.check = .ok ()) (h : page.tree.Shaped)
    (r : Rule) :
    (r.apply config page).2 = true ↔ (r.apply config page).1.serialize ≠ page.serialize := by
  constructor
  · intro hfired hsame
    have hle := byteLength_apply hc h hfired
    have hpos := one_le_byteLength_marker hc r
    rw [hsame] at hle
    omega
  · intro hne
    by_contra hnot
    exact hne (congrArg Page.serialize (apply_eq_self (Bool.eq_false_iff.2 hnot)))

end

end Rule

/-! ## Bytes lost to a run -/

section
variable {config : Config} {page : Page} {m : Nat}

/-- Rules that run one behind the other make the page shorter by a marker for each firing. -/
theorem byteLength_applyRules (hc : config.check = .ok ())
    (hm : ∀ r : Rule, m ≤ byteLength (r.marker config).toList) (h : page.tree.Shaped)
    (rs : List Rule) :
    byteLength (applyRules config rs page).1.serialize.toList +
      (applyRules config rs page).2.length * m ≤ byteLength page.serialize.toList := by
  induction rs generalizing page with
  | nil => simp [applyRules]
  | cons r rs ih =>
    have hrest := ih (Rule.shaped_apply hc h r)
    simp only [applyRules]
    cases hfired : (r.apply config page).2 with
    | false =>
      rw [Rule.apply_eq_self hfired] at hrest ⊢
      exact hrest
    | true =>
      have hstep := Rule.byteLength_apply hc h hfired
      have hr := hm r
      rw [if_pos rfl, List.length_cons, Nat.succ_mul]
      omega

theorem byteLength_mend (hc : config.check = .ok ())
    (hm : ∀ r : Rule, m ≤ byteLength (r.marker config).toList) (h : page.tree.Shaped) :
    byteLength (mend config page).1.serialize.toList + (mend config page).2.length * m ≤
      byteLength page.serialize.toList := by
  have hrun := byteLength_applyRules hc hm h (activeRules config.pipeline)
  rw [Page.serialize, tree_mend]
  exact hrun

/-- A run keeps the flag, and sets it if a rule fires. -/
theorem modified_mend_iff (config : Config) (page : Page) :
    (mend config page).1.modified = true ↔ page.modified = true ∨ (mend config page).2 ≠ [] := by
  by_cases hnil : (mend config page).2 = []
  · rw [mend_eq_self hnil, hnil]
    simp
  · exact iff_of_true (modified_mend (mt List.isEmpty_iff.1 hnil)) (.inr hnil)

end

/-! ## Bytes lost to several runs -/

section
variable {configs : List Config} {page : Page} {m : Nat}

theorem shaped_mendEach (hvalid : ∀ config ∈ configs, config.check = .ok ())
    (h : page.tree.Shaped) : (mendEach configs page).1.tree.Shaped := by
  induction configs generalizing page with
  | nil => exact h
  | cons config configs ih =>
    obtain ⟨hc, hvalid⟩ := List.forall_mem_cons.1 hvalid
    exact ih hvalid (shaped_mend hc h)

/-- Runs one behind the other make the page shorter by a marker for each firing. -/
theorem byteLength_mendEach (hvalid : ∀ config ∈ configs, config.check = .ok ())
    (hm : ∀ config ∈ configs, ∀ r : Rule, m ≤ byteLength (r.marker config).toList)
    (h : page.tree.Shaped) :
    byteLength (mendEach configs page).1.serialize.toList +
      (mendEach configs page).2.flatten.length * m ≤ byteLength page.serialize.toList := by
  induction configs generalizing page with
  | nil => simp [mendEach]
  | cons config configs ih =>
    obtain ⟨hc, hvalid⟩ := List.forall_mem_cons.1 hvalid
    obtain ⟨hmc, hm⟩ := List.forall_mem_cons.1 hm
    have hfirst := byteLength_mend hc hmc h
    have hrest := ih hvalid hm (shaped_mend hc h)
    simp only [mendEach, List.flatten_cons, List.length_append, Nat.add_mul]
    omega

/-- Runs in which no rule fires leave the page as it is. -/
theorem mendEach_eq_self (h : ∀ fired ∈ (mendEach configs page).2, fired = []) :
    (mendEach configs page).1 = page := by
  induction configs generalizing page with
  | nil => rfl
  | cons config configs ih =>
    simp only [mendEach] at h ⊢
    obtain ⟨hnil, hrest⟩ := List.forall_mem_cons.1 h
    rw [ih hrest, mend_eq_self hnil]

theorem modified_mendEach_iff (configs : List Config) (page : Page) :
    (mendEach configs page).1.modified = true ↔
      page.modified = true ∨ ∃ fired ∈ (mendEach configs page).2, fired ≠ [] := by
  induction configs generalizing page with
  | nil => simp [mendEach]
  | cons config configs ih =>
    simp only [mendEach, List.exists_mem_cons_iff]
    rw [ih, modified_mend_iff, or_assoc]

/-- Runs with any firing leave a page that is written in fewer bytes. -/
theorem byteLength_mendEach_lt (hvalid : ∀ config ∈ configs, config.check = .ok ())
    (h : page.tree.Shaped) (hfired : ∃ fired ∈ (mendEach configs page).2, fired ≠ []) :
    byteLength (mendEach configs page).1.serialize.toList < byteLength page.serialize.toList := by
  have hle := byteLength_mendEach hvalid
    (fun config hconfig => Rule.one_le_byteLength_marker (hvalid config hconfig)) h
  have hpos : 0 < (mendEach configs page).2.flatten.length := by
    obtain ⟨fired, hmem, hne⟩ := hfired
    obtain ⟨r, hr⟩ := List.exists_mem_of_ne_nil fired hne
    exact List.length_pos_of_mem (List.mem_flatten.2 ⟨fired, hmem, hr⟩)
  omega

/-- After runs one behind the other, the page is written otherwise than before just when a rule
fired. -/
theorem serialize_mendEach_ne_iff (hvalid : ∀ config ∈ configs, config.check = .ok ())
    (h : page.tree.Shaped) :
    (mendEach configs page).1.serialize ≠ page.serialize ↔
      ∃ fired ∈ (mendEach configs page).2, fired ≠ [] := by
  constructor
  · intro hne
    by_contra hnone
    push Not at hnone
    exact hne (congrArg Page.serialize (mendEach_eq_self hnone))
  · intro hfired hsame
    have hlt := byteLength_mendEach_lt hvalid h hfired
    rw [hsame] at hlt
    exact Nat.lt_irrefl _ hlt

/-- The flag of a page that was read tells the truth, however often the rules have run on it: it is
set just when a rule fired, and just when the page is written otherwise than after it was read.
Later runs change what is written just when a rule fires in them, and bring nothing back. At every
step of a run, a rule fires just when it changes what is written, and if it does not, the page is
left as it is. -/
theorem modified_iff_serialize_ne (hvalid : ∀ config ∈ configs, config.check = .ok ())
    {path source : String} {t : Tree} (hp : parse source = .ok t) :
    let page : Page := ⟨path, source, t, false⟩
    let now := (mendEach configs page).1
    (now.modified = true ↔ ∃ fired ∈ (mendEach configs page).2, fired ≠ []) ∧
      (now.modified = true ↔ now.serialize ≠ page.serialize) ∧
      (∀ later, (∀ config ∈ later, config.check = .ok ()) →
        ((mendEach later now).1.serialize ≠ now.serialize ↔
          ∃ fired ∈ (mendEach later now).2, fired ≠ []) ∧
        (now.modified = true → (mendEach later now).1.serialize ≠ page.serialize)) ∧
      ∀ config, config.check = .ok () → ∀ (rs : List Rule) (r : Rule),
        let mid := (applyRules config rs now).1
        ((r.apply config mid).2 = true ↔ (r.apply config mid).1.serialize ≠ mid.serialize) ∧
          ((r.apply config mid).2 = false → (r.apply config mid).1 = mid) := by
  intro page now
  have hpage : page.tree.Shaped := (sound_of_parse hp).shaped
  have hnow : now.tree.Shaped := shaped_mendEach hvalid hpage
  have hflag : now.modified = true ↔ ∃ fired ∈ (mendEach configs page).2, fired ≠ [] := by
    have hiff := modified_mendEach_iff configs page
    rwa [or_iff_right Bool.false_ne_true] at hiff
  refine ⟨hflag, hflag.trans (serialize_mendEach_ne_iff hvalid hpage).symm, ?_, ?_⟩
  · intro later hlater
    refine ⟨serialize_mendEach_ne_iff hlater hnow, fun hmodified hsame => ?_⟩
    have hlt := byteLength_mendEach_lt hvalid hpage (hflag.1 hmodified)
    have hle := byteLength_mendEach (m := 0) hlater (fun _ _ _ => Nat.zero_le _) hnow
    rw [hsame] at hle
    exact Nat.lt_irrefl _ (Nat.lt_of_le_of_lt (Nat.le_of_add_right_le hle) hlt)
  · intro config hc rs r mid
    have hmid : mid.tree.Shaped := shaped_applyRules hc hnow
    exact ⟨Rule.apply_fires_iff_serialize_ne hc hmid r, Rule.apply_eq_self⟩

end

/-- The first run joins the pieces of the marker of the second, which fires in its turn. -/
theorem modified_two_runs :
    let first : Config :=
      { titleSuffix := { marker := "M" }, importStatement := { marker := "I" } }
    let second : Config :=
      { titleSuffix := { marker := "ab" }, importStatement := { marker := "I" } }
    let source := "<title>aMb</title>"
    ∃ t, parse source = .ok t ∧
      let page : Page := ⟨"", source, t, false⟩
      let now := (mendEach [first] page).1
      now.modified = true ∧ now.serialize ≠ page.serialize ∧
        (mendEach [second] now).1.serialize ≠ now.serialize ∧
        (mendEach [second] now).1.serialize ≠ page.serialize := by
  intro first second source
  have hrun : ((parse source).toOption.map fun t =>
      ((mendEach [first] ⟨"", source, t, false⟩).2,
        (mendEach [second] (mendEach [first] ⟨"", source, t, false⟩).1).2)) =
      some ([[Rule.titleSuffix]], [[Rule.titleSuffix]]) := by
    decide +kernel
  obtain ⟨t, hp, hrun⟩ := exists_ok_of_map hrun
  obtain ⟨hfirst, hsecond⟩ := Prod.mk.inj hrun
  have hcheck : Config.check
      { titleSuffix := { marker := "M" }, importStatement := { marker := "I" } } = .ok () := by rfl
  have hcheck' : Config.check
      { titleSuffix := { marker := "ab" }, importStatement := { marker := "I" } } = .ok () := by rfl
  have hvalid : ∀ config ∈ [first], config.check = .ok () := List.forall_mem_singleton.2 hcheck
  have hlater : ∀ config ∈ [second], config.check = .ok () := List.forall_mem_singleton.2 hcheck'
  obtain ⟨hflag, hwritten, hruns, -⟩ := @modified_iff_serialize_ne [first] hvalid "" source t hp
  have hmodified := hflag.2 ⟨_, hfirst ▸ List.mem_cons_self, List.cons_ne_nil _ _⟩
  obtain ⟨hchanged, hkept⟩ := hruns [second] hlater
  have hagain := hchanged.2 ⟨_, hsecond ▸ List.mem_cons_self, List.cons_ne_nil _ _⟩
  exact ⟨t, hp, hmodified, hwritten.1 hmodified, hagain, hkept hmodified⟩

end PageMend
