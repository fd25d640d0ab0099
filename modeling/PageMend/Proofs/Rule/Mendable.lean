import PageMend.Proofs.Markup.RawText
import PageMend.Proofs.Rule.Fire

/-!
# Mended pages can be read

Once the rules have been applied to a page, what is written can be read again, unless the title rule
has made tags of what was text (`exists_parse_mend`). Texts are written as they stand, and the only
ones with a bracket in them are bodies of scripts and style sheets. If there is one in the title,
its text becomes text of the title (`exists_parse_mend_script`); if there is one in the heading that
is mended, without the marker its body may be no body any more. `Page.Mendable` leaves out such
pages. The import rule takes whole elements away and needs no condition.

`Rule.stripTitleSuffix_cases` says all that the title rule can do. As each rule is active once,
`Page.Mendable` is needed of the page only, and not of what a rule has left of it.
-/

namespace PageMend

open Markup

/-- A marker that may be used is not empty. -/
theorem ne_empty_of_checkMarker {field marker : String} (h : checkMarker field marker = .ok ()) :
    marker ≠ "" := by
  rintro rfl
  cases h

/-- A marker that may be used has no character that pages write as a reference. -/
theorem isMarkupCharacter_of_checkMarker {field marker : String}
    (h : checkMarker field marker = .ok ()) {c : Char} (hc : c ∈ marker.toList) :
    isMarkupCharacter c = false := by
  unfold checkMarker at h
  split at h
  · cases h
  · split at h
    · cases h
    · rename_i hnone
      exact Bool.eq_false_iff.2 fun hm => hnone (List.any_eq_true.2 ⟨c, hc, hm⟩)

/-- Both markers of a configuration that is fit to run may be used. -/
theorem Config.checkMarker_of_check {config : Config} (h : config.check = .ok ()) :
    checkMarker "title_suffix.marker" config.titleSuffix.marker = .ok () ∧
      checkMarker "import_statement.marker" config.importStatement.marker = .ok () := by
  unfold Config.check at h
  dsimp only at h
  split at h
  · cases h
  · obtain ⟨⟨⟩, htitle, h⟩ := bind_eq_ok.1 h
    obtain ⟨⟨⟩, himport, -⟩ := bind_eq_ok.1 h
    exact ⟨htitle, himport⟩

/-! ## Pages that the title rule may mend -/

instance (t : Tree) (id : Nat) (pattern replacement : String) :
    Decidable (t.StaysLegible id pattern replacement) :=
  inferInstanceAs (Decidable (∀ p ∈ id :: t.descendants id, ∀ c ∈ t.children p,
    ∀ body ∈ t.text? c, (t.kind p).Holds (body.replaceEach pattern replacement)))

namespace Page

/-- Whether all texts that the title rule makes can be read where they are: no text in a title has a
bracket, and no script or style sheet in a heading that the rule mends needs the marker to be
read. -/
def Mendable (config : TitleSuffix) (page : Page) : Prop :=
  (∀ id ∈ page.tree.elementsNamed Tree.root "title", ∀ n ∈ page.tree.descendants id,
    ∀ body ∈ page.tree.text? n, '<' ∉ body.toList) ∧
  ∀ id ∈ page.headings config.headingTag config.headingClass,
    page.tree.StaysLegible id config.marker ""

instance (config : TitleSuffix) (page : Page) : Decidable (page.Mendable config) :=
  inferInstanceAs (Decidable (_ ∧ _))

/-- An edit that adds no element adds no heading. -/
theorem mem_headings_of_trims {page page' : Page} (h : page'.tree.Trims page.tree) {id : Nat}
    {tag className : String} (hid : id ∈ page'.headings tag className) :
    id ∈ page.headings tag className := by
  obtain ⟨hid, hclass⟩ := List.mem_filter.1 hid
  obtain ⟨hold, hsame⟩ := h.of_mem_elementsNamed hid
  exact List.mem_filter.2 ⟨hold, by rwa [hsame]⟩

/-- Where a row is removed, all that is left was there before. -/
theorem Mendable.remove {config : TitleSuffix} {page : Page} (h : page.Mendable config)
    (row : Nat) : (page.remove row).1.Mendable config := by
  obtain ⟨htitle, hheading⟩ := h
  have htrims : (page.remove row).1.tree.Trims page.tree := Tree.trims_detach page.tree row
  have hchildren : ∀ i, (page.remove row).1.tree.children i ⊆ page.tree.children i := fun i =>
    (Tree.children_detach_sublist page.tree row i).subset
  have hbelow := Tree.descendants_subset hchildren
  have hkind : ∀ i, (page.remove row).1.tree.kind i = page.tree.kind i :=
    Tree.kind_detach page.tree row
  have htext : ∀ i, (page.remove row).1.tree.text? i = page.tree.text? i := fun i =>
    congrArg Kind.text? (hkind i)
  constructor
  · intro id hid n hn body hbody
    rw [htext] at hbody
    exact htitle id (htrims.of_mem_elementsNamed hid).1 n (hbelow id hn) body hbody
  · intro id hid p hp c hc body hbody
    rw [htext] at hbody
    rw [hkind]
    exact hheading id (mem_headings_of_trims htrims hid) p (List.cons_subset_cons id (hbelow id) hp)
      c (hchildren p hc) body hbody

/-! ### Giving a page another title -/

section
variable {page : Page}

theorem setTitle_none (h : page.titleNode = none) (title : String) :
    page.setTitle title = (page, false) := by
  rw [setTitle, h]

theorem setTitle_some {id : Nat} (h : page.titleNode = some id) (title : String) :
    page.setTitle title = ({ page with tree := page.tree.setText id title }, true) := by
  rw [setTitle, h]

theorem lt_of_titleNode {id : Nat} (h : page.titleNode = some id) : id < page.tree.size :=
  (Tree.lt_of_mem_descendants (Rule.element_of_mem_elementsNamed (List.mem_of_head? h)).1).2

theorem linked_setTitle (hl : page.tree.Linked) (title : String) :
    (page.setTitle title).1.tree.Linked := by
  cases hid : page.titleNode with
  | none =>
    rw [setTitle_none hid]
    exact hl
  | some id =>
    rw [setTitle_some hid]
    exact hl.setText (lt_of_titleNode hid) title

theorem proper_setTitle (h : page.tree.Proper) (title : String) :
    (page.setTitle title).1.tree.Proper := by
  cases hid : page.titleNode with
  | none =>
    rw [setTitle_none hid]
    exact h
  | some id =>
    obtain ⟨-, e, he, -⟩ := Rule.element_of_mem_elementsNamed (List.mem_of_head? hid)
    rw [setTitle_some hid]
    exact h.setText he title

theorem trims_setTitle (page : Page) (title : String) :
    (page.setTitle title).1.tree.Trims page.tree := by
  cases hid : page.titleNode with
  | none =>
    rw [setTitle_none hid]
    exact .refl page.tree
  | some id =>
    rw [setTitle_some hid]
    exact Tree.trims_setText (lt_of_titleNode hid) title

end

end Page

/-! ## Rules keep a page sound -/

namespace Rule

/-- A rule that does not fire leaves the page as it is. -/
theorem apply_eq_self {config : Config} {page : Page} {r : Rule}
    (h : (r.apply config page).2 = false) : (r.apply config page).1 = page := by
  cases r with
  | titleSuffix =>
    change (stripTitleSuffix config.titleSuffix page).2 = false at h
    show (stripTitleSuffix config.titleSuffix page).1 = page
    unfold stripTitleSuffix at h ⊢
    split at h
    · rfl
    · split at h
      · dsimp only at h
        split at h <;> cases h
      · rename_i hmarker
        rw [if_neg hmarker]
  | importStatement =>
    change (removeImportStatement config.importStatement page).2 = false at h
    show (removeImportStatement config.importStatement page).1 = page
    unfold removeImportStatement at h ⊢
    split at h
    · rfl
    · rename_i row _
      unfold Page.remove Tree.detach at h ⊢
      cases hp : page.tree.parent row with
      | none => rfl
      | some p => rw [hp] at h; cases h

/-- A rule edits the tree of a page and nothing else. -/
theorem apply_eq_with_tree (config : Config) (page : Page) (r : Rule) :
    (r.apply config page).1 = { page with tree := (r.apply config page).1.tree } := by
  cases r with
  | titleSuffix =>
    have hset : ∀ title : String, (page.setTitle title).1 =
        { page with tree := (page.setTitle title).1.tree } := by
      intro title
      rw [Page.setTitle]
      split <;> rfl
    simp only [Rule.apply, Rule.stripTitleSuffix]
    split
    · rfl
    · split
      · split
        · exact hset _
        · rw [hset]
          rfl
      · rfl
  | importStatement =>
    simp only [Rule.apply, Rule.removeImportStatement]
    split <;> rfl

/-- A title is no script or style sheet. -/
theorem isRaw_of_title {t : Tree} {id : Nat} (h : id ∈ t.elementsNamed Tree.root "title") :
    (t.kind id).isRaw = false := by
  obtain ⟨-, e, he, hname⟩ := element_of_mem_elementsNamed h
  have hraw : isRawTextName e.name = false := by
    rw [isRawTextName, sameName_congr hname]
    decide
  unfold Tree.element? at he
  cases hk : t.kind id with
  | element e' =>
    rw [hk] at he
    cases he
    rw [Kind.isRaw, Element.isRaw, hraw]
    rfl
  | _ => rfl

/-- A title that can have content may hold any text. -/
theorem shaped_setText_title {page : Page} (h : page.tree.Shaped) {id : Nat}
    (hid : page.titleNode = some id) (hleaf : (page.tree.kind id).isLeaf = false)
    (body : String) : (page.tree.setText id body).Shaped := by
  have hmem : id ∈ page.tree.elementsNamed Tree.root "title" := List.mem_of_head? hid
  have hlt := (Tree.lt_of_mem_descendants (element_of_mem_elementsNamed hmem).1).2
  exact h.setText hlt hleaf (isRaw_of_title hmem) body

/-- A page with the marker taken out of its title. -/
def retitled (config : TitleSuffix) (page : Page) : Page :=
  (page.setTitle ((page.title.getD "").replaceEach config.marker "")).1

/-- What the title rule does when it fires: it takes the marker out of the title, which then is one
text, and out of the texts below the first heading, if there is one. -/
theorem stripTitleSuffix_cases {config : TitleSuffix} {page : Page} (h : page.tree.Shaped)
    (hne : config.marker ≠ "") (hfired : (stripTitleSuffix config page).2 = true) :
    ∃ id, page.titleNode = some id ∧ (page.tree.kind id).isLeaf = false ∧
      (page.tree.text id).hasInfix config.marker = true ∧
      (retitled config page).tree =
        page.tree.setText id ((page.tree.text id).replaceEach config.marker "") ∧
      (((retitled config page).headings config.headingTag config.headingClass).head? = none ∧
          (stripTitleSuffix config page).1 = retitled config page ∨
        ∃ heading,
          ((retitled config page).headings config.headingTag config.headingClass).head? =
            some heading ∧
          (stripTitleSuffix config page).1.tree =
            ((retitled config page).tree.replaceText heading config.marker "").1) := by
  unfold stripTitleSuffix at hfired ⊢
  split at hfired
  · cases hfired
  · rename_i title ht
    have hretitled : retitled config page =
        (page.setTitle (title.replaceEach config.marker "")).1 := by
      rw [retitled, ht]
      rfl
    obtain ⟨id, hid, rfl⟩ := Option.map_eq_some_iff.1 ht
    have hmem : id ∈ page.tree.elementsNamed Tree.root "title" := List.mem_of_head? hid
    split at hfired
    · rename_i hmarker
      have hleaf : (page.tree.kind id).isLeaf = false := by
        obtain ⟨-, e, he, -⟩ := element_of_mem_elementsNamed hmem
        cases hl : (page.tree.kind id).isLeaf with
        | false => rfl
        | true =>
          -- a leaf has no text, and so no marker
          have hnil : (page.tree.text id).toList = [] := by
            rw [Tree.toList_text (Tree.text?_of_element? he), Tree.forest_eq_nil (h.childless hl)]
            rfl
          rw [String.hasInfix, hnil, Text.occursIn, List.isEmpty_iff] at hmarker
          exact absurd (String.toList_eq_nil_iff.1 hmarker) hne
      refine ⟨id, hid, hleaf, hmarker, ?_, ?_⟩
      · rw [hretitled, Page.setTitle, hid]
      · rw [hretitled]
        simp only [hmarker, if_true]
        split
        · rename_i hnone
          exact .inl ⟨hnone, rfl⟩
        · rename_i heading hheading
          exact .inr ⟨heading, hheading, rfl⟩
    · cases hfired

/-- A rule keeps the shape of a page. -/
theorem shaped_apply {config : Config} {page : Page} (hc : config.check = .ok ())
    (h : page.tree.Shaped) (r : Rule) : (r.apply config page).1.tree.Shaped := by
  cases hfired : (r.apply config page).2 with
  | false =>
    rw [apply_eq_self hfired]
    exact h
  | true =>
    cases r with
    | titleSuffix =>
      obtain ⟨id, hid, hleaf, -, htree, hresult⟩ := stripTitleSuffix_cases h
        (ne_empty_of_checkMarker (Config.checkMarker_of_check hc).1) hfired
      have hshaped : (retitled config.titleSuffix page).tree.Shaped := by
        rw [htree]
        exact shaped_setText_title h hid hleaf _
      show (stripTitleSuffix config.titleSuffix page).1.tree.Shaped
      rcases hresult with ⟨-, hresult⟩ | ⟨heading, -, hresult⟩
      · rw [hresult]
        exact hshaped
      · rw [hresult]
        exact hshaped.replaceText ..
    | importStatement =>
      show (removeImportStatement config.importStatement page).1.tree.Shaped
      unfold removeImportStatement
      split
      · exact h
      · exact h.detach _

/-- A character of the text of an element is one of a text below it. -/
theorem exists_of_mem_text {t : Tree} {id : Nat} {c : Char} (h : t.text? id = none)
    (hc : c ∈ (t.text id).toList) :
    ∃ n ∈ t.descendants id, ∃ body ∈ t.text? n, c ∈ body.toList := by
  rw [Tree.text, h] at hc
  have hjoin : ∀ ss : List String, c ∈ (String.join ss).toList → ∃ s ∈ ss, c ∈ s.toList := by
    intro ss hss
    rw [String.toList_join] at hss
    exact List.mem_flatMap.1 hss
  obtain ⟨body, hbody, hc⟩ := hjoin _ hc
  obtain ⟨n, hn, htext⟩ := List.mem_filterMap.1 hbody
  exact ⟨n, hn, body, htext, hc⟩

/-- Once a title is replaced by a text without a bracket, the headings can still be mended. -/
theorem staysLegible_setText {config : TitleSuffix} {page mended : Page}
    (h : page.Mendable config) {id : Nat} (hid : id ∈ page.tree.elementsNamed Tree.root "title")
    {body : String} (hbody : '<' ∉ body.toList) (htree : mended.tree = page.tree.setText id body)
    (hshaped : mended.tree.Shaped) {heading : Nat}
    (hheading : heading ∈ mended.headings config.headingTag config.headingClass) :
    mended.tree.StaysLegible heading config.marker "" := by
  have hlt := (Tree.lt_of_mem_descendants (element_of_mem_elementsNamed hid).1).2
  have htrims : mended.tree.Trims page.tree := by
    rw [htree]
    exact Tree.trims_setText hlt body
  have helement : ∃ e, mended.tree.element? heading = some e := by
    obtain ⟨-, e, he, -⟩ := element_of_mem_elementsNamed (List.mem_filter.1 hheading).1
    exact ⟨e, he⟩
  intro p hp c hc text htext
  -- what holds the text is an element, and so was there before
  have hpage : p ∈ heading :: page.tree.descendants heading := by
    rcases List.mem_cons.1 hp with rfl | hbelow
    · exact List.mem_cons_self
    · have hchild := Tree.mem_descendants_iff.2 ⟨p, .inr hbelow, hc⟩
      obtain ⟨e, he⟩ := hshaped.proper.exists_element hchild helement
        (hshaped.linked.mem_children_iff.1 hc)
      exact List.mem_cons_of_mem _ (htrims.below hbelow he)
  rw [Tree.mem_text?_iff, htree, Tree.kind_setText hlt] at htext
  rw [htree, Tree.children_setText hlt] at hc
  rw [htree, Tree.kind_setText hlt]
  split at hc
  · -- the new text of the title
    rename_i hp
    subst hp
    obtain rfl := List.mem_singleton.1 hc
    rw [if_pos rfl] at htext
    cases htext
    rw [if_neg (Nat.ne_of_lt hlt), Kind.holds_iff_of_plain (isRaw_of_title hid)]
    exact fun hm => hbody (String.mem_replaceEach_empty hm)
  · split at hc
    · cases hc
    · rename_i hp
      rw [if_neg (Nat.ne_of_lt (Tree.lt_of_mem_children hc).2)] at htext
      rw [if_neg hp]
      exact h.2 heading (Page.mem_headings_of_trims htrims hheading) p hpage c hc text
        (Tree.mem_text?_iff.2 htext)

/-- A rule leaves a sound page. -/
theorem sound_apply {config : Config} {page : Page} (hc : config.check = .ok ()) {r : Rule}
    (h : page.tree.Sound)
    (hm : r = .titleSuffix → (r.apply config page).2 = true → page.Mendable config.titleSuffix) :
    (r.apply config page).1.tree.Sound := by
  cases hfired : (r.apply config page).2 with
  | false =>
    rw [apply_eq_self hfired]
    exact h
  | true =>
    cases r with
    | titleSuffix =>
      have hm := hm rfl hfired
      obtain ⟨id, hid, hleaf, -, htree, hresult⟩ := stripTitleSuffix_cases h.shaped
        (ne_empty_of_checkMarker (Config.checkMarker_of_check hc).1) hfired
      have hid := List.mem_of_head? hid
      obtain ⟨hdesc, e, he, -⟩ := element_of_mem_elementsNamed hid
      have hlt := (Tree.lt_of_mem_descendants hdesc).2
      -- the new title is made of characters of the texts below the old one
      have hbracket : '<' ∉
          ((page.tree.text id).replaceEach config.titleSuffix.marker "").toList := by
        intro hb
        obtain ⟨n, hn, body, hbody, hb⟩ :=
          exists_of_mem_text (Tree.text?_of_element? he) (String.mem_replaceEach_empty hb)
        exact hm.1 id hid n hn body hbody hb
      have hsound : (retitled config.titleSuffix page).tree.Sound := by
        rw [htree]
        exact h.setText hlt hleaf (isRaw_of_title hid) hbracket
      show (stripTitleSuffix config.titleSuffix page).1.tree.Sound
      rcases hresult with ⟨-, hresult⟩ | ⟨heading, hheading, hresult⟩
      · rw [hresult]
        exact hsound
      · rw [hresult]
        have hheading := List.mem_of_head? hheading
        obtain ⟨-, e, he, -⟩ := element_of_mem_elementsNamed (List.mem_filter.1 hheading).1
        exact hsound.replaceText (Tree.text?_of_element? he)
          (staysLegible_setText hm hid hbracket htree hsound.shaped hheading)
    | importStatement =>
      show (removeImportStatement config.importStatement page).1.tree.Sound
      unfold removeImportStatement
      split
      · exact h
      · exact h.detach _

end Rule

/-! ## A run -/

theorem nodup_eraseDups {α : Type} [BEq α] [LawfulBEq α] (as : List α) : as.eraseDups.Nodup := by
  induction hn : as.length using Nat.strongRecOn generalizing as with
  | ind n ih =>
    cases as with
    | nil => exact List.nodup_nil
    | cons a as =>
      have hlt : (as.filter fun b => !b == a).length < n := by
        have hle := List.length_filter_le (fun b => !b == a) as
        rw [List.length_cons] at hn
        omega
      rw [List.eraseDups_cons]
      refine List.nodup_cons.2 ⟨?_, ih _ hlt _ rfl⟩
      rw [List.mem_eraseDups]
      simp

/-- Each rule is active once. -/
theorem nodup_activeRules (pipeline : List RuleEntry) : (activeRules pipeline).Nodup :=
  nodup_eraseDups _

section
variable {config : Config}

/-- Only the rules that are applied can fire, and they fire in order. -/
theorem sublist_applyRules (config : Config) (rs : List Rule) (page : Page) :
    (applyRules config rs page).2.Sublist rs := by
  induction rs generalizing page with
  | nil => exact List.Sublist.refl _
  | cons r rs ih =>
    simp only [applyRules]
    split
    · exact (ih _).cons_cons r
    · exact (ih _).cons r

theorem mem_of_mem_applyRules {rs : List Rule} {page : Page} {r : Rule}
    (h : r ∈ (applyRules config rs page).2) : r ∈ rs :=
  (sublist_applyRules config rs page).subset h

/-- Rules that run one behind the other keep the shape of a page. -/
theorem shaped_applyRules (hc : config.check = .ok ()) {rs : List Rule} {page : Page}
    (h : page.tree.Shaped) : (applyRules config rs page).1.tree.Shaped := by
  induction rs generalizing page with
  | nil => exact h
  | cons r rs ih =>
    simp only [applyRules]
    exact ih (Rule.shaped_apply hc h r)

/-- Rules that run one behind the other, each once, leave a sound page. -/
theorem sound_applyRules (hc : config.check = .ok ()) {rs : List Rule} (hrs : rs.Nodup)
    {page : Page} (h : page.tree.Sound)
    (hm : Rule.titleSuffix ∈ (applyRules config rs page).2 → page.Mendable config.titleSuffix) :
    (applyRules config rs page).1.tree.Sound := by
  induction rs generalizing page with
  | nil => exact h
  | cons r rs ih =>
    obtain ⟨hr, hrs⟩ := List.nodup_cons.1 hrs
    simp only [applyRules] at hm ⊢
    have hsound := Rule.sound_apply hc (r := r) h fun hr hfired => by
      apply hm
      rw [hfired, if_pos rfl, hr]
      exact List.mem_cons_self
    refine ih hrs hsound fun hlater => ?_
    have hpage : page.Mendable config.titleSuffix := by
      apply hm
      split
      · exact List.mem_cons_of_mem r hlater
      · exact hlater
    -- the title rule is still to come, so the page has lost no more than a row
    cases r with
    | titleSuffix => exact absurd (mem_of_mem_applyRules hlater) hr
    | importStatement =>
      show (Rule.removeImportStatement config.importStatement page).1.Mendable config.titleSuffix
      unfold Rule.removeImportStatement
      split
      · exact hpage
      · exact hpage.remove _

@[simp] theorem tree_mend (page : Page) :
    (mend config page).1.tree = (applyRules config (activeRules config.pipeline) page).1.tree := by
  simp only [mend]
  split <;> rfl

@[simp] theorem fired_mend (page : Page) :
    (mend config page).2 = (applyRules config (activeRules config.pipeline) page).2 := rfl

theorem modified_mend {page : Page} (h : ¬(mend config page).2.isEmpty = true) :
    (mend config page).1.modified = true := by
  simp only [mend] at h ⊢
  rw [if_neg h]

theorem shaped_mend (hc : config.check = .ok ()) {page : Page} (h : page.tree.Shaped) :
    (mend config page).1.tree.Shaped := by
  rw [tree_mend]
  exact shaped_applyRules hc h

/-- A run of the rules leaves a sound page. -/
theorem sound_mend (hc : config.check = .ok ()) {page : Page} (h : page.tree.Sound)
    (hm : Rule.titleSuffix ∈ (mend config page).2 → page.Mendable config.titleSuffix) :
    (mend config page).1.tree.Sound := by
  rw [tree_mend]
  exact sound_applyRules hc (nodup_activeRules _) h hm

/-- Once the rules have been applied to a page that was read, what is written can be read again, if
the title rule does not fire or the page is one that it may mend. -/
theorem exists_parse_mend (hc : config.check = .ok ()) {path source : String} {t : Tree}
    (hp : parse source = .ok t)
    (hm : Rule.titleSuffix ∈ (mend config ⟨path, source, t, false⟩).2 →
      Page.Mendable config.titleSuffix ⟨path, source, t, false⟩) :
    ∃ t', parse (mend config ⟨path, source, t, false⟩).1.serialize = .ok t' := by
  have hsound : (mend config ⟨path, source, t, false⟩).1.tree.Sound :=
    sound_mend hc (sound_of_parse hp) hm
  obtain ⟨t', hread, -⟩ := parse_serialize_of_legible hsound.shaped (hsound.legibleBelow Tree.root)
  exact ⟨t', hread⟩

end

/-- A style sheet without a bracket in the title, and a script in the heading from which the marker
is taken, do no harm. -/
theorem exists_parse_mend_heading :
    let config : Config := { titleSuffix := { marker := "M" } }
    let source := "<title>aM<style>b</style></title>" ++
      "<h1 class=\"title\">aM<script>write(\"<b>M\")</script></h1>"
    ∃ t t', parse source = .ok t ∧ (mend config ⟨"", source, t, false⟩).2 = [.titleSuffix] ∧
      (mend config ⟨"", source, t, false⟩).1.serialize = "<title>ab</title>" ++
        "<h1 class=\"title\">a<script>write(\"<b>\")</script></h1>" ∧
      parse (mend config ⟨"", source, t, false⟩).1.serialize = .ok t' := by
  intro config source
  have hcheck : Config.check { titleSuffix := { marker := "M" } } = .ok () := by rfl
  have hrun : ((parse source).toOption.map fun t =>
      ((mend config ⟨"", source, t, false⟩).2, (mend config ⟨"", source, t, false⟩).1.serialize,
        decide (Page.Mendable config.titleSuffix ⟨"", source, t, false⟩))) =
      some ([.titleSuffix], "<title>ab</title>" ++
        "<h1 class=\"title\">a<script>write(\"<b>\")</script></h1>", true) := by
    decide +kernel
  obtain ⟨t, hp, hrun⟩ := exists_ok_of_map hrun
  simp only [Prod.mk.injEq, decide_eq_true_eq] at hrun
  obtain ⟨hfired, hwritten, hmendable⟩ := hrun
  obtain ⟨t', hread⟩ : ∃ t', parse (mend config ⟨"", source, t, false⟩).1.serialize = .ok t' :=
    exists_parse_mend hcheck hp fun _ => hmendable
  exact ⟨t, t', hp, hfired, hwritten, hread⟩

/-- A tag in a script in the title becomes a tag of the page, and nothing closes it. -/
theorem exists_parse_mend_script :
    ¬ ∀ (config : Config) (path source : String) (t : Tree), config.check = .ok () →
      parse source = .ok t →
      ∃ t', parse (mend config ⟨path, source, t, false⟩).1.serialize = .ok t' := by
  intro hall
  let source := "<title><script><b> QML Type</script></title>"
  have hrun : ((parse source).toOption.map fun t =>
      (parse (mend {} ⟨"", source, t, false⟩).1.serialize).toOption.isSome) = some false := by
    decide +kernel
  obtain ⟨t, hp, hbroken⟩ := exists_ok_of_map hrun
  obtain ⟨t', hread⟩ := hall {} "" source t (by rfl) hp
  rw [hread] at hbroken
  cases hbroken

end PageMend
