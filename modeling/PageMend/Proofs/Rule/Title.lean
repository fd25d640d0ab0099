import PageMend.Proofs.Markup.RawText
import PageMend.Proofs.Rule.Frame
import PageMend.Proofs.Text.Reference

/-!
# What the title rule leaves

The title stays where it is, and the marker is taken out of its text, once, or twice if the title is
at or below the heading that is mended (`title_stripTitleSuffix`).

That the rule fires does not mean that the marker is gone. It comes back where it stands across a
joint of what is left; there is no page on which that happens just when the marker is one character
over and over (`stripTitleSuffix_cleared_iff`). Nor are the references of the title left alone: the
marker is looked for in the text as it is written. They are, if no piece of the title in front of
the marker ends in what may be the start of one (`stripTitleSuffix_references`).

Any text without a bracket is the title of some page (`exists_parse_title`), so what is told of
texts is told of pages.
-/

namespace PageMend

open Markup

namespace Rule

/-- The heading that the title rule mends: the first one, once the title is one text. -/
def mendedHeading (config : TitleSuffix) (page : Page) : Option Nat :=
  ((retitled config page).headings config.headingTag config.headingClass).head?

/-- Whether the title is the heading that is mended, or below it. -/
def TitleInHeading (config : TitleSuffix) (page : Page) : Prop :=
  ∃ id ∈ page.titleNode, ∃ heading ∈ mendedHeading config page,
    id ∈ heading :: (retitled config page).tree.descendants heading

instance (config : TitleSuffix) (page : Page) : Decidable (TitleInHeading config page) :=
  inferInstanceAs (Decidable (∃ id ∈ page.titleNode, ∃ heading ∈ mendedHeading config page, _))

/-- What the title rule makes of a title: it takes the marker out, and once more if the title is in
the heading that is mended. -/
def newTitle (config : TitleSuffix) (page : Page) (title : String) : String :=
  let once := title.replaceEach config.marker ""
  if TitleInHeading config page then once.replaceEach config.marker "" else once

section
variable {config : Config} {page : Page}

theorem text_of_descendants {t : Tree} {id n : Nat} {body : String} (h : t.text? id = none)
    (hbelow : t.descendants id = [n]) (hn : t.text? n = some body) : t.text id = body := by
  rw [Tree.text, h]
  show String.join ((t.descendants id).filterMap t.text?) = body
  rw [hbelow]
  simp [hn]

theorem stripTitleSuffix_eq_self
    (hfired : (stripTitleSuffix config.titleSuffix page).2 = false) :
    (stripTitleSuffix config.titleSuffix page).1 = page := by
  have hfired : (titleSuffix.apply config page).2 = false := hfired
  exact apply_eq_self hfired

/-- The title stays the title. -/
theorem titleNode_stripTitleSuffix (hc : config.check = .ok ()) (h : page.tree.Shaped) :
    (stripTitleSuffix config.titleSuffix page).1.titleNode = page.titleNode := by
  cases hfired : (stripTitleSuffix config.titleSuffix page).2 with
  | false => rw [stripTitleSuffix_eq_self hfired]
  | true =>
    obtain ⟨id, hid, -⟩ := stripTitleSuffix_cases h
      (ne_empty_of_checkMarker (Config.checkMarker_of_check hc).1) hfired
    have hframed := framed_apply hc h.pos (framed_refl config.titleSuffix.marker page.tree) h
      (r := .titleSuffix) (fun _ => ⟨rfl, rfl⟩) fun he => nomatch he
    have hkept : ¬ Sites.Lost (Sites.or {} (titleSuffix.sites config page)) page.tree id := by
      rw [sites_titleSuffix hfired, hid]
      exact Sites.not_lost_title rfl rfl _
    rw [hid]
    exact hframed.titleNode h.pos hid hkept

/-- The rule leaves the nodes of the retitled page where they are, and takes the marker from each
text below the heading that it mends. -/
theorem stripTitleSuffix_texts (h : page.tree.Shaped) (hne : config.titleSuffix.marker ≠ "")
    (hfired : (stripTitleSuffix config.titleSuffix page).2 = true) (n : Nat) :
    let before := (retitled config.titleSuffix page).tree
    let after := (stripTitleSuffix config.titleSuffix page).1.tree
    after.descendants n = before.descendants n ∧ after.kind n =
      if ∃ heading ∈ mendedHeading config.titleSuffix page, n ∈ before.descendants heading then
        (before.kind n).replaceEach config.titleSuffix.marker ""
      else before.kind n := by
  intro before after
  obtain ⟨-, -, -, -, -, hresult⟩ := stripTitleSuffix_cases h hne hfired
  have hlinked : before.Linked := Page.linked_setTitle h.linked _
  rcases hresult with ⟨hnone, hresult⟩ | ⟨heading, hheading, hresult⟩
  · have hafter : after = before := congrArg Page.tree hresult
    have hnone : mendedHeading config.titleSuffix page = none := hnone
    rw [hafter, hnone]
    simp
  · have hafter : after = (before.replaceText heading config.titleSuffix.marker "").1 := hresult
    have hfound : mendedHeading config.titleSuffix page = some heading := hheading
    rw [hafter, hfound, Tree.descendants_replaceText, hlinked.kind_replaceText]
    refine ⟨rfl, ?_⟩
    by_cases hn : n = heading
    · -- the heading itself is an element
      obtain ⟨-, e, he, -⟩ := element_of_mem_elementsNamed
        (List.mem_filter.1 (List.mem_of_head? hheading)).1
      have hk : before.kind n = .element e := hn ▸ Tree.kind_of_element? he
      rw [hk]
      simp [Kind.replaceEach]
    · simp [hn]

theorem text?_stripTitleSuffix (h : page.tree.Shaped) (hne : config.titleSuffix.marker ≠ "")
    (hfired : (stripTitleSuffix config.titleSuffix page).2 = true) {heading n : Nat}
    (hheading : heading ∈ mendedHeading config.titleSuffix page)
    (hn : n ∈ (retitled config.titleSuffix page).tree.descendants heading) :
    (stripTitleSuffix config.titleSuffix page).1.tree.text? n =
      ((retitled config.titleSuffix page).tree.text? n).map
        (·.replaceEach config.titleSuffix.marker "") := by
  rw [Tree.text?, (stripTitleSuffix_texts h hne hfired n).2, if_pos ⟨heading, hheading, hn⟩,
    Tree.text?]
  cases (retitled config.titleSuffix page).tree.kind n <;> rfl

/-- The text of the title is below the heading just when the title is the heading or below it. -/
theorem titleInHeading_iff (h : page.tree.Shaped) {id : Nat} (hid : page.titleNode = some id)
    {body : String}
    (htree : (retitled config.titleSuffix page).tree = page.tree.setText id body) :
    (∃ heading ∈ mendedHeading config.titleSuffix page,
        page.tree.size ∈ (retitled config.titleSuffix page).tree.descendants heading) ↔
      TitleInHeading config.titleSuffix page := by
  have hlt := Page.lt_of_titleNode hid
  have hbelow : page.tree.size ∈ (page.tree.setText id body).descendants id := by
    rw [Tree.descendants_setText hlt]
    exact List.mem_singleton.2 rfl
  have hchild : page.tree.size ∈ (page.tree.setText id body).children id := by
    rw [Tree.children_setText hlt, if_pos rfl]
    exact List.mem_singleton.2 rfl
  constructor
  · rintro ⟨heading, hheading, hmem⟩
    refine ⟨id, hid, heading, hheading, ?_⟩
    rw [htree] at hmem ⊢
    exact List.mem_cons.2 ((h.linked.setText hlt body).mem_of_mem_children hchild hmem)
  · rintro ⟨id', hid', heading, hheading, hmem⟩
    obtain rfl : id = id' := Option.some.inj (hid.symm.trans hid')
    refine ⟨heading, hheading, ?_⟩
    rw [htree] at hmem ⊢
    rcases List.mem_cons.1 hmem with rfl | hmem
    · exact hbelow
    · exact Tree.mem_descendants_trans hmem hbelow

/-- The marker is taken out of the title, and once more if the title is in the heading. -/
theorem title_stripTitleSuffix (hc : config.check = .ok ()) (h : page.tree.Shaped)
    {title : String} (ht : page.title = some title) :
    (stripTitleSuffix config.titleSuffix page).1.title =
      some (newTitle config.titleSuffix page title) := by
  have hne := ne_empty_of_checkMarker (Config.checkMarker_of_check hc).1
  cases hfired : (stripTitleSuffix config.titleSuffix page).2 with
  | false =>
    -- there is no marker to take out
    have hnot : title.hasInfix config.titleSuffix.marker = false := by
      refine Bool.eq_false_iff.2 fun hmarker => Bool.false_ne_true (hfired.symm.trans ?_)
      exact stripTitleSuffix_fires_iff.2 ⟨title, ht, hmarker⟩
    have hsame := String.replaceEach_of_not_hasInfix "" hnot
    rw [stripTitleSuffix_eq_self hfired, ht, newTitle, hsame, hsame, ite_self]
  | true =>
    obtain ⟨id, hid, -, -, htree, -⟩ := stripTitleSuffix_cases h hne hfired
    have hnode := (titleNode_stripTitleSuffix hc h).trans hid
    obtain rfl : page.tree.text id = title := by
      rw [Page.title, hid] at ht
      exact Option.some.inj ht
    obtain ⟨-, e, he, -⟩ := element_of_mem_elementsNamed (List.mem_of_head? hnode)
    have hlt := Page.lt_of_titleNode hid
    have hbelow : (stripTitleSuffix config.titleSuffix page).1.tree.descendants id =
        [page.tree.size] := by
      rw [(stripTitleSuffix_texts h hne hfired id).1, htree, Tree.descendants_setText hlt]
    have hkind := (stripTitleSuffix_texts h hne hfired page.tree.size).2
    simp only [titleInHeading_iff h hid htree] at hkind
    rw [htree, Tree.kind_setText hlt, if_pos rfl] at hkind
    rw [Page.title, hnode]
    refine congrArg some (text_of_descendants (Tree.text?_of_element? he) hbelow ?_)
    rw [Tree.text?, hkind, newTitle]
    split <;> rfl

end

/-! ## Whether the marker is gone -/

/-- Whether the title has no marker any more, and no text below the heading that was mended has. -/
def Cleared (config : TitleSuffix) (page : Page) : Prop :=
  let after := (stripTitleSuffix config page).1
  (∃ title, after.title = some title ∧ title.hasInfix config.marker = false) ∧
    ∀ heading ∈ mendedHeading config page, ∀ n ∈ after.tree.descendants heading,
      ∀ body ∈ after.tree.text? n, body.hasInfix config.marker = false

theorem hasInfix_replaceEach_iff {text marker : String} (hne : marker ≠ "") :
    (text.replaceEach marker "").hasInfix marker = true ↔
      Text.Rejoins marker.toList text.toList := by
  rw [String.hasInfix, String.toList_replaceEach_empty]
  exact Text.occursIn_replaceAll_iff (mt String.toList_eq_nil_iff.1 hne) _

section
variable {config : Config} {page : Page}

/-- The marker is gone just when it does not stand across a joint of what is left of the title and
of the texts below the heading. -/
theorem cleared_iff (hc : config.check = .ok ()) (h : page.tree.Shaped)
    (hfired : (stripTitleSuffix config.titleSuffix page).2 = true) :
    let marker := config.titleSuffix.marker.toList
    Cleared config.titleSuffix page ↔
      (¬ TitleInHeading config.titleSuffix page →
        ∀ title ∈ page.title, ¬ Text.Rejoins marker title.toList) ∧
      ∀ heading ∈ mendedHeading config.titleSuffix page,
        ∀ n ∈ (retitled config.titleSuffix page).tree.descendants heading,
        ∀ body ∈ (retitled config.titleSuffix page).tree.text? n,
          ¬ Text.Rejoins marker body.toList := by
  have hne := ne_empty_of_checkMarker (Config.checkMarker_of_check hc).1
  intro marker
  have hgone : ∀ text : String, (text.replaceEach config.titleSuffix.marker "").hasInfix
      config.titleSuffix.marker = false ↔ ¬ Text.Rejoins marker text.toList := fun text => by
    rw [← hasInfix_replaceEach_iff hne, Bool.not_eq_true]
  have htexts := stripTitleSuffix_texts h hne hfired
  obtain ⟨id, hid, -, -, htree, -⟩ := stripTitleSuffix_cases h hne hfired
  have ht : page.title = some (page.tree.text id) := by rw [Page.title, hid]; rfl
  have hafter := title_stripTitleSuffix hc h ht
  constructor
  · rintro ⟨⟨title, htitle, hclear⟩, hheading⟩
    refine ⟨fun hout title' ht' => ?_, fun heading hmended n hn body hbody => ?_⟩
    · obtain rfl := Option.some.inj (ht.symm.trans ht')
      obtain rfl := Option.some.inj (hafter.symm.trans htitle)
      rwa [newTitle, if_neg hout, hgone] at hclear
    · refine (hgone body).1 (hheading heading hmended n ?_ _ ?_)
      · rwa [(htexts heading).1]
      · rw [text?_stripTitleSuffix h hne hfired hmended hn, hbody]
        rfl
  · rintro ⟨htitle, hheading⟩
    refine ⟨⟨_, hafter, ?_⟩, fun heading hmended n hn body hbody => ?_⟩
    · rw [newTitle]
      split
      · -- the title is one of the texts below the heading
        rename_i hin
        obtain ⟨heading, hmended, hn⟩ := (titleInHeading_iff h hid htree).2 hin
        refine (hgone _).2 (hheading heading hmended _ hn _ ?_)
        rw [htree, Tree.text?, Tree.kind_setText (Page.lt_of_titleNode hid), if_pos rfl]
        rfl
      · rename_i hout
        exact (hgone _).2 (htitle hout _ ht)
    · rw [(htexts heading).1] at hn
      rw [text?_stripTitleSuffix h hne hfired hmended hn] at hbody
      obtain ⟨old, hold, rfl⟩ := Option.map_eq_some_iff.1 hbody
      exact (hgone old).2 (hheading heading hmended n hn old hold)

end

/-! ### A page with any title -/

/-- A title is read, and so is its end tag. -/
theorem readable_title : Element.Readable ⟨"title", "", [], false⟩ ∧
    (Element.endTag ⟨"title", "", [], false⟩).ReadsBack := by
  have hrun : ((parse (elementPage "title" "a")).toOption.map fun t => t.kind 1) =
      some (.element ⟨"title", "", [], false⟩) := by
    decide +kernel
  obtain ⟨t, hp, hk⟩ := exists_ok_of_map hrun
  have hsound := sound_of_parse hp
  have hreads := hsound.kinds 1
  rw [hk] at hreads
  exact ⟨hreads, hsound.stop hk rfl (List.not_mem_nil)⟩

/-- A title may be any text without a bracket. -/
theorem exists_parse_title {body : String} (hne : body ≠ "") (hb : '<' ∉ body.toList) :
    ∃ t, parse (elementPage "title" body) = .ok t ∧ t.forest Tree.root =
      .node (.element ⟨"title", "", [], false⟩) (.leaf (.text body)) .nil := by
  obtain ⟨hreads, hstop⟩ := readable_title
  refine parse_of_spelling (.element hreads hstop rfl rfl (.text hb .nil) .nil)
    (.node rfl (.text hne rfl .nil) .nil) ?_
  rw [toList_elementPage]
  show _ = Element.spelling _ _ _ ++ []
  rw [Element.spelling_of_isLeaf rfl]
  simp [withoutMark, Element.startTag, Element.endTag, Kind.spelling]

section
variable {page : Page} {body : String}

theorem title_of_forest (hforest : page.tree.forest Tree.root =
    .node (.element ⟨"title", "", [], false⟩) (.leaf (.text body)) .nil) :
    page.title = some body := by
  obtain ⟨id, hid, hbelow⟩ : ∃ id, page.titleNode = some id ∧
      page.tree.forest id = .leaf (.text body) := by
    refine Option.map_eq_some_iff.1 ?_
    show (page.tree.elementsNamed Tree.root "title").head?.map page.tree.forest = _
    rw [← Tree.firstNamed_forest, hforest]
    have hname : Element.hasName ⟨"title", "", [], false⟩ "title" = true := by decide
    simp [Forest.firstNamed, Forest.elements, Forest.leaf, Kind.element?, hname]
  obtain ⟨-, e, he, -⟩ := element_of_mem_elementsNamed (List.mem_of_head? hid)
  refine Option.map_eq_some_iff.2 ⟨id, hid, String.toList_injective ?_⟩
  rw [Tree.toList_text (Tree.text?_of_element? he), hbelow]
  simp [Forest.leaf, Forest.text, Kind.text?]

/-- A page with nothing but a title has no heading to mend: a heading has a class. -/
theorem mendedHeading_of_forest (hforest : page.tree.forest Tree.root =
    .node (.element ⟨"title", "", [], false⟩) (.leaf (.text body)) .nil)
    (config : TitleSuffix) : mendedHeading config page = none := by
  refine Option.eq_none_iff_forall_ne_some.2 fun heading hheading => ?_
  have hmem : heading ∈ page.headings _ _ :=
    Page.mem_headings_of_trims (Page.trims_setTitle page _) (List.mem_of_head? hheading)
  obtain ⟨hnamed, hclass⟩ := List.mem_filter.1 hmem
  obtain ⟨hon, e, he, -⟩ := element_of_mem_elementsNamed hnamed
  have hin : (e, page.tree.forest heading) ∈ (page.tree.forest Tree.root).elements :=
    Tree.mem_elements_forest.2 ⟨heading, hon, he, rfl⟩
  rw [hforest] at hin
  obtain ⟨rfl, -⟩ := Prod.mk.inj (List.mem_singleton.1 hin)
  rw [he] at hclass
  cases hclass

end

section
variable {config : Config}

/-- For each text in which the marker stands and that has no bracket, there is a page that has it as
its title and no heading to mend. The rule then fires and takes the marker out once. -/
theorem exists_fires (hc : config.check = .ok ()) {body : String} (hb : '<' ∉ body.toList)
    (hmarker : body.hasInfix config.titleSuffix.marker = true) (path : String) :
    ∃ source t, parse source = .ok t ∧
      let page : Page := ⟨path, source, t, false⟩
      (stripTitleSuffix config.titleSuffix page).2 = true ∧ page.title = some body ∧
        (stripTitleSuffix config.titleSuffix page).1.title =
          some (body.replaceEach config.titleSuffix.marker "") := by
  have hne := ne_empty_of_checkMarker (Config.checkMarker_of_check hc).1
  have hbody : body ≠ "" := by
    rintro rfl
    exact hne (String.toList_eq_nil_iff.1 (List.infix_nil.1 (Text.occursIn_iff.1 hmarker)))
  obtain ⟨t, hp, hforest⟩ := exists_parse_title hbody hb
  have ht : Page.title ⟨path, elementPage "title" body, t, false⟩ = some body :=
    title_of_forest hforest
  refine ⟨_, t, hp, stripTitleSuffix_fires_iff.2 ⟨body, ht, hmarker⟩, ht, ?_⟩
  have hout : ¬ TitleInHeading config.titleSuffix ⟨path, elementPage "title" body, t, false⟩ := by
    rintro ⟨-, -, heading, hheading, -⟩
    rw [mendedHeading_of_forest hforest] at hheading
    cases hheading
  rw [title_stripTitleSuffix hc (sound_of_parse hp).shaped ht, newTitle, if_neg hout]

end

/-- When the title rule fires, the marker is gone just when it does not stand across a joint of what
is left: of the title, unless the title is in the heading and is mended again, and of each text
below the heading. So it is gone on each page on which the rule fires just when the marker is one
character over and over. -/
theorem stripTitleSuffix_cleared_iff {config : Config} (hc : config.check = .ok ()) :
    let marker := config.titleSuffix.marker.toList
    (∀ path source t, parse source = .ok t →
      let page : Page := ⟨path, source, t, false⟩
      (stripTitleSuffix config.titleSuffix page).2 = true →
      (Cleared config.titleSuffix page ↔
        (¬ TitleInHeading config.titleSuffix page →
          ∀ title ∈ page.title, ¬ Text.Rejoins marker title.toList) ∧
        ∀ heading ∈ mendedHeading config.titleSuffix page,
          ∀ n ∈ (retitled config.titleSuffix page).tree.descendants heading,
          ∀ body ∈ (retitled config.titleSuffix page).tree.text? n,
            ¬ Text.Rejoins marker body.toList)) ∧
      ((∀ path source t, parse source = .ok t →
          (stripTitleSuffix config.titleSuffix ⟨path, source, t, false⟩).2 = true →
          Cleared config.titleSuffix ⟨path, source, t, false⟩) ↔
        ∃ c, ∀ d ∈ marker, d = c) := by
  intro marker
  have hne := ne_empty_of_checkMarker (Config.checkMarker_of_check hc).1
  have hne' : marker ≠ [] := mt String.toList_eq_nil_iff.1 hne
  refine ⟨fun path source t hp => cleared_iff hc (sound_of_parse hp).shaped, ?_, ?_⟩
  · intro hall
    by_contra hmixed
    -- the title from which the marker is taken is made of its own characters
    obtain ⟨text, hchars, hmarker, hback⟩ := Text.exists_replaceAll_eq_self hne' hmixed
    have hb : '<' ∉ (String.ofList text).toList := by
      rw [String.toList_ofList]
      intro hmem
      have hplain := isMarkupCharacter_of_checkMarker (Config.checkMarker_of_check hc).1
        (hchars _ hmem)
      cases hplain
    have hin : (String.ofList text).hasInfix config.titleSuffix.marker = true := by
      rwa [String.hasInfix, String.toList_ofList]
    obtain ⟨source, t, hp, hfired, -, hafter⟩ := exists_fires hc hb hin ""
    obtain ⟨⟨title, htitle, hclear⟩, -⟩ := hall "" source t hp hfired
    obtain rfl := Option.some.inj (hafter.symm.trans htitle)
    rw [String.hasInfix, String.toList_replaceEach_empty, String.toList_ofList, hback,
      Bool.eq_false_iff] at hclear
    exact hclear (Text.occursIn_iff.2 (List.infix_refl _))
  · rintro ⟨c, hall⟩ path source t hp hfired
    have hnever : ∀ text, ¬ Text.Rejoins marker text := fun text hjoin => by
      rw [← Text.occursIn_replaceAll_iff hne', Text.not_occursIn_replaceAll hne' hall] at hjoin
      cases hjoin
    exact (cleared_iff hc (sound_of_parse hp).shaped hfired).2
      ⟨fun _ _ _ => hnever _, fun _ _ _ _ _ _ => hnever _⟩

/-- A title in the heading loses a marker that comes back. -/
theorem stripTitleSuffix_cleared_in_heading :
    let source := "<h1 class=\"title\">a QML Type<title>b QML QML Type Type</title></h1>"
    ∃ t, parse source = .ok t ∧
      let page : Page := ⟨"", source, t, false⟩
      (stripTitleSuffix {} page).2 = true ∧ TitleInHeading {} page ∧ Cleared {} page := by
  intro source
  have hrun : ((parse source).toOption.map fun t =>
      let page : Page := ⟨"", source, t, false⟩
      decide ((stripTitleSuffix {} page).2 = true ∧ TitleInHeading {} page ∧
        ∀ heading ∈ mendedHeading {} page, ∀ n ∈ (retitled {} page).tree.descendants heading,
          ∀ body ∈ (retitled {} page).tree.text? n,
            ¬ Text.Rejoins " QML Type".toList body.toList)) = some true := by
    decide +kernel
  obtain ⟨t, hp, hrun⟩ := exists_ok_of_map hrun
  simp only [decide_eq_true_eq] at hrun
  obtain ⟨hfired, hin, htexts⟩ := hrun
  have hcheck : Config.check {} = .ok () := by rfl
  obtain ⟨hcleared, -⟩ := stripTitleSuffix_cleared_iff hcheck
  exact ⟨t, hp, hfired, hin,
    (hcleared "" source t hp hfired).2 ⟨fun hout => absurd hin hout, htexts⟩⟩

/-- Without the marker in its middle, this title ends in the marker. -/
theorem stripTitleSuffix_rejoined :
    ¬ ∀ (config : Config) (path source : String) (t : Tree), config.check = .ok () →
      parse source = .ok t →
      (stripTitleSuffix config.titleSuffix ⟨path, source, t, false⟩).2 = true →
      Cleared config.titleSuffix ⟨path, source, t, false⟩ := by
  intro hall
  let source := "<title>Foo QML QML Type Type</title>"
  have hrun : ((parse source).toOption.map fun t =>
      decide ((stripTitleSuffix {} ⟨"", source, t, false⟩).2 = true ∧
        (stripTitleSuffix {} ⟨"", source, t, false⟩).1.title = some "Foo QML Type")) =
      some true := by
    decide +kernel
  obtain ⟨t, hp, hrun⟩ := exists_ok_of_map hrun
  simp only [decide_eq_true_eq] at hrun
  obtain ⟨hfired, hafter⟩ := hrun
  obtain ⟨⟨title, htitle, hclear⟩, -⟩ :=
    hall {} "" source t (by rfl) hp hfired
  obtain rfl := Option.some.inj (hafter.symm.trans htitle)
  revert hclear
  decide

/-! ## References in the title -/

/-- The texts out of which the marker is taken until the title is the new one. -/
def strippedTitles (config : TitleSuffix) (page : Page) (title : String) : List String :=
  title :: if TitleInHeading config page then [title.replaceEach config.marker ""] else []

section
variable {config : TitleSuffix} {page : Page} {title : String}

theorem references_newTitle (hmarker : '&' ∉ config.marker.toList)
    (h : ∀ text ∈ strippedTitles config page title,
      ∀ piece ∈ (Text.pieces config.marker.toList text.toList).dropLast,
        Text.endsInReference piece = false) :
    Text.references (newTitle config page title).toList = Text.references title.toList := by
  rw [strippedTitles] at h
  obtain ⟨hfirst, hsecond⟩ := List.forall_mem_cons.1 h
  have honce := Text.references_replaceAll hmarker hfirst
  rw [newTitle]
  split
  · rename_i hin
    rw [if_pos hin] at hsecond
    have htwice := Text.references_replaceAll hmarker (hsecond _ (List.mem_singleton.2 rfl))
    rw [String.toList_replaceEach_empty, htwice, String.toList_replaceEach_empty, honce]
  · rw [String.toList_replaceEach_empty, honce]

theorem references_sublist_newTitle (hmarker : '&' ∉ config.marker.toList)
    (h : ∀ c ∈ config.marker.toList.head?, Text.isReferenceCharacter c = false ∧ c ≠ ';') :
    (Text.references title.toList).Sublist
      (Text.references (newTitle config page title).toList) := by
  have hkept := Text.references_sublist_replaceAll hmarker h
  rw [newTitle]
  split
  · rw [String.toList_replaceEach_empty, String.toList_replaceEach_empty]
    exact (hkept _).trans (hkept _)
  · rw [String.toList_replaceEach_empty]
    exact hkept _

end

/-- The title rule leaves the references of the title as they are, if no piece of a title in front
of the marker ends in what may be the start of a reference. It loses none, if the marker starts with
a character that no reference has. But there is no marker with which it leaves those of each page as
they are. -/
theorem stripTitleSuffix_references {config : Config} (hc : config.check = .ok ()) :
    let marker := config.titleSuffix.marker.toList
    (∀ path source t, parse source = .ok t →
      let page : Page := ⟨path, source, t, false⟩
      ∀ title ∈ page.title, ∃ now,
        (stripTitleSuffix config.titleSuffix page).1.title = some now ∧
        ((∀ text ∈ strippedTitles config.titleSuffix page title,
            ∀ piece ∈ (Text.pieces marker text.toList).dropLast,
              Text.endsInReference piece = false) →
          Text.references now.toList = Text.references title.toList) ∧
        ((∀ c ∈ marker.head?, Text.isReferenceCharacter c = false ∧ c ≠ ';') →
          (Text.references title.toList).Sublist (Text.references now.toList))) ∧
      ∃ path source t, parse source = .ok t ∧
        let page : Page := ⟨path, source, t, false⟩
        ∃ title now, page.title = some title ∧
          (stripTitleSuffix config.titleSuffix page).1.title = some now ∧
          Text.references now.toList ≠ Text.references title.toList := by
  intro marker
  have hmarker := (Config.checkMarker_of_check hc).1
  have hne : marker ≠ [] := mt String.toList_eq_nil_iff.1 (ne_empty_of_checkMarker hmarker)
  have hplain : '&' ∉ marker := fun hmem => by
    cases isMarkupCharacter_of_checkMarker hmarker hmem
  refine ⟨fun path source t hp title ht => ?_, ?_⟩
  · exact ⟨_, title_stripTitleSuffix hc (sound_of_parse hp).shaped ht, references_newTitle hplain,
      references_sublist_newTitle hplain⟩
  · obtain ⟨text, hin, hchars, hother⟩ := Text.exists_references_replaceAll_ne hne hplain
    have hb : '<' ∉ (String.ofList text).toList := by
      rw [String.toList_ofList]
      intro hmem
      rcases hchars _ hmem with hmem | hmem
      · cases isMarkupCharacter_of_checkMarker hmarker hmem
      · revert hmem
        decide
    obtain ⟨source, t, hp, -, ht, hafter⟩ := exists_fires hc hb
      (by rwa [String.hasInfix, String.toList_ofList]) ""
    refine ⟨"", source, t, hp, _, _, ht, hafter, ?_⟩
    rwa [String.toList_replaceEach_empty, String.toList_ofList]

/-- The marker stands twice, once right behind a reference. -/
theorem stripTitleSuffix_references_kept :
    let source := "<title>R&amp;D QML Type&#38; QML Type</title>"
    ∃ t, parse source = .ok t ∧
      ∃ now, (stripTitleSuffix {} ⟨"", source, t, false⟩).1.title = some now ∧
        Text.references now.toList = [['a', 'm', 'p'], ['#', '3', '8']] := by
  intro source
  have hrun : ((parse source).toOption.map fun t =>
      let page : Page := ⟨"", source, t, false⟩
      decide (page.title = some "R&amp;D QML Type&#38; QML Type" ∧
        ∀ text ∈ strippedTitles {} page "R&amp;D QML Type&#38; QML Type",
          ∀ piece ∈ (Text.pieces " QML Type".toList text.toList).dropLast,
            Text.endsInReference piece = false)) = some true := by
    decide +kernel
  obtain ⟨t, hp, hrun⟩ := exists_ok_of_map hrun
  simp only [decide_eq_true_eq] at hrun
  obtain ⟨ht, hpieces⟩ := hrun
  have hcheck : Config.check {} = .ok () := by rfl
  obtain ⟨now, hafter, hkept, -⟩ :=
    (stripTitleSuffix_references hcheck).1 "" source t hp _ ht
  refine ⟨t, hp, now, hafter, (hkept hpieces).trans ?_⟩
  decide +kernel

/-- A marker of letters is taken out of the name in a reference. -/
theorem stripTitleSuffix_references_broken :
    ¬ ∀ (config : Config) (path source : String) (t : Tree) (title now : String),
      config.check = .ok () → parse source = .ok t →
      Page.title ⟨path, source, t, false⟩ = some title →
      (stripTitleSuffix config.titleSuffix ⟨path, source, t, false⟩).1.title = some now →
      Text.references now.toList = Text.references title.toList := by
  intro hall
  have hcheck : Config.check { titleSuffix := { marker := "amp" } } = .ok () := by rfl
  let config : Config := { titleSuffix := { marker := "amp" } }
  let source := "<title>R&amp;D amp</title>"
  have hrun : ((parse source).toOption.map fun t =>
      let page : Page := ⟨"", source, t, false⟩
      decide (page.title = some "R&amp;D amp" ∧
        (stripTitleSuffix config.titleSuffix page).1.title = some "R&;D ")) = some true := by
    decide +kernel
  obtain ⟨t, hp, hrun⟩ := exists_ok_of_map hrun
  simp only [decide_eq_true_eq] at hrun
  obtain ⟨ht, hafter⟩ := hrun
  have hsame := hall config "" source t _ _ hcheck hp ht hafter
  revert hsame
  decide +kernel

end Rule

end PageMend
