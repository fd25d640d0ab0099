import Mathlib.Data.List.Find
import PageMend.Proofs.Markup.Apart
import PageMend.Proofs.Rule.Frame

/-!
# The order of the rules

Two rules may run in either order if what one looks for stands apart from what the other edits. That
is so on a page on which no title, and no heading that the title rule mends, is, holds or stands in
a table or a row (`Page.Separate`). The row that the import rule removes is then apart from each
title and heading, wherever it is found (`Page.Separate.removable`).

A run leaves nodes alone that are apart from its sites (`Sites.Far`). So the import rule finds the
row that it found before the title rule has run (`importRow_titleSuffix`). The title rule finds what
it found before the row was removed, and what it does commutes with the removal
(`Rule.stripTitleSuffix_remove`). Both runs leave the same page, to the numbers of its nodes
(`applyRules_swap`).
-/

namespace PageMend

open Markup

/-- No title, and no heading that the title rule mends, is, holds or stands in a table or a row. -/
def Page.Separate (config : TitleSuffix) (page : Page) : Prop :=
  ∀ a ∈ page.tree.elementsNamed Tree.root "title" ++
      page.headings config.headingTag config.headingClass,
    ∀ b ∈ page.tables ++ page.tree.elementsNamed Tree.root "tr", page.tree.Apart a b

instance (config : TitleSuffix) (page : Page) : Decidable (page.Separate config) :=
  inferInstanceAs (Decidable (∀ a ∈ _, ∀ b ∈ _, page.tree.Apart a b))

/-! ## Far from all sites -/

namespace Sites

/-- Whether a node stands apart from all sites. -/
def Far (s : Sites) (t : Tree) (n : Nat) : Prop :=
  ∀ id, id ∈ s.title ∨ id ∈ s.heading ∨ id ∈ s.row → t.Apart id n

variable {s : Sites} {t : Tree} {n : Nat}

theorem Far.not_lost (h : s.Far t n) : ¬ s.Lost t n := by
  rintro (⟨id, hid, hn⟩ | ⟨id, hid, hn⟩)
  · exact (h id (.inl hid)).not_above hn
  · rcases List.mem_cons.1 hn with he | hn
    · exact (h id (.inr (.inr hid))).ne he.symm
    · exact (h id (.inr (.inr hid))).not_above hn

theorem Far.not_stripped (h : s.Far t n) : ¬ s.Stripped t n := by
  rintro ⟨id, hid, hn⟩
  rcases List.mem_cons.1 hn with he | hn
  · exact (h id (.inr (.inl hid))).ne he.symm
  · exact (h id (.inr (.inl hid))).not_above hn

theorem Far.added_eq_nil (h : s.Far t n) : s.added t n = [] :=
  if_neg fun htitle => (h n (.inl htitle)).ne rfl

theorem Far.of_mem_descendants (h : s.Far t n) (hl : t.Linked) {m : Nat}
    (hm : m ∈ t.descendants n) : s.Far t m :=
  fun id hid => (h id hid).of_mem_descendants hl hm

end Sites

section
variable {marker : String} {s : Sites} {t u : Tree}

/-- A listing of elements stays as it is, if none of them is lost. -/
theorem Framed.filter_elements_eq (h : Framed marker s t u) (hpos : 0 < t.size)
    {p : Option Element → Bool} (hnone : p none = false)
    (hkept : ∀ n ∈ t.descendants Tree.root, p (t.element? n) = true → ¬ s.Lost t n) :
    (u.descendants Tree.root).filter (fun n => p (u.element? n)) =
      (t.descendants Tree.root).filter fun n => p (t.element? n) := by
  rw [h.filter_elements hpos hnone]
  refine List.filter_eq_self.2 fun n hn => ?_
  obtain ⟨hn, hp⟩ := List.mem_filter.1 hn
  simpa using hkept n hn hp

theorem Framed.elementsNamed_eq (h : Framed marker s t u) (hpos : 0 < t.size) {tag : String}
    (hkept : ∀ n ∈ t.elementsNamed Tree.root tag, ¬ s.Lost t n) :
    u.elementsNamed Tree.root tag = t.elementsNamed Tree.root tag :=
  h.filter_elements_eq (p := Option.any (Element.hasName · tag)) hpos rfl fun n hn hnamed =>
    hkept n (List.mem_filter.2 ⟨hn, hnamed⟩)

/-- What is below a node that is far from all sites stays there, in its order. -/
theorem Framed.descendants_of_far (h : Framed marker s t u) (hl : t.Linked) {n : Nat}
    (hn : n < t.size) (hfar : s.Far t n) : u.descendants n = t.descendants n := by
  refine Tree.descendants_congr fun i hi => ?_
  obtain ⟨hi, hfar⟩ : i < t.size ∧ s.Far t i := by
    rcases hi with rfl | hi
    · exact ⟨hn, hfar⟩
    · exact ⟨(Tree.lt_of_mem_descendants hi).2, hfar.of_mem_descendants hl hi⟩
  rw [h.cut.children hi hfar.not_lost, hfar.added_eq_nil, List.append_nil]
  refine List.filter_eq_self.2 fun c hc => ?_
  have hc := hfar.of_mem_descendants hl (Tree.mem_descendants_of_mem_children hc)
  simpa using hc.not_lost

/-- The headings stay the headings, if none of them is lost. -/
theorem Framed.headings_eq {page page' : Page} (h : Framed marker s page.tree page'.tree)
    (hpos : 0 < page.tree.size) {tag className : String}
    (hkept : ∀ n ∈ page.headings tag className, ¬ s.Lost page.tree n) :
    page'.headings tag className = page.headings tag className := by
  unfold Page.headings Tree.elementsNamed at hkept ⊢
  rw [List.filter_filter] at hkept ⊢
  rw [List.filter_filter]
  exact h.filter_elements_eq
    (p := fun e => e.any (Element.hasClass · className) && e.any (Element.hasName · tag)) hpos rfl
    fun n hn hp => hkept n (List.mem_filter.2 ⟨hn, hp⟩)

theorem Framed.elementsNamed_of_far (h : Framed marker s t u) (hl : t.Linked) {n : Nat}
    (hn : n < t.size) (hfar : s.Far t n) (tag : String) :
    u.elementsNamed n tag = t.elementsNamed n tag := by
  unfold Tree.elementsNamed
  rw [h.descendants_of_far hl hn hfar]
  refine List.filter_congr fun c hc => ?_
  have hkept := (hfar.of_mem_descendants hl hc).not_lost
  rw [Tree.isNamed, Tree.isNamed, h.element?_eq (Tree.lt_of_mem_descendants hc).2 hkept]

theorem Framed.text?_of_far (h : Framed marker s t u) {n : Nat} (hn : n < t.size)
    (hfar : s.Far t n) : u.text? n = t.text? n := by
  unfold Tree.text?
  rw [h.kind n hn hfar.not_lost, if_neg hfar.not_stripped]

theorem Framed.text_of_far (h : Framed marker s t u) (hl : t.Linked) {n : Nat} (hn : n < t.size)
    (hfar : s.Far t n) : u.text n = t.text n := by
  have hbelow : (t.descendants n).filterMap u.text? = (t.descendants n).filterMap t.text? :=
    List.filterMap_congr fun c hc =>
      h.text?_of_far (Tree.lt_of_mem_descendants hc).2 (hfar.of_mem_descendants hl hc)
  unfold Tree.text
  rw [h.text?_of_far hn hfar, h.descendants_of_far hl hn hfar, hbelow]

/-- What is above a node that is not lost stays there, and is not lost. -/
theorem Framed.ancestors_eq (h : Framed marker s t u) (hl : t.Linked) {n : Nat} (hn : n < t.size)
    (hkept : ¬ s.Lost t n) :
    u.ancestors n = t.ancestors n ∧ ∀ a ∈ t.ancestors n, a < t.size ∧ ¬ s.Lost t a := by
  induction n using Nat.strongRecOn with
  | ind n ih =>
    rw [Tree.ancestors_eq u, Tree.ancestors_eq t, h.parent n hn hkept]
    cases hp : t.parent n with
    | none => exact ⟨rfl, fun a ha => nomatch ha⟩
    | some p =>
      have hlt := Tree.parent_lt hp
      have hp : ¬ s.Lost t p := fun hlost => hkept (hlost.below (hl.mem_children_iff.2 hp))
      obtain ⟨habove, hall⟩ := ih p hlt (Nat.lt_trans hlt hn) hp
      refine ⟨congrArg (p :: ·) habove, fun a ha => ?_⟩
      rcases List.mem_cons.1 ha with rfl | ha
      · exact ⟨Nat.lt_trans hlt hn, hp⟩
      · exact hall a ha

theorem Framed.ancestorNamed_eq (h : Framed marker s t u) (hl : t.Linked) {n : Nat}
    (hn : n < t.size) (hkept : ¬ s.Lost t n) (tag : String) :
    u.ancestorNamed n tag = t.ancestorNamed n tag := by
  obtain ⟨habove, hall⟩ := h.ancestors_eq hl hn hkept
  unfold Tree.ancestorNamed
  rw [habove]
  refine List.find?_congr fun a ha => ?_
  obtain ⟨ha, hkept⟩ := hall a ha
  rw [Tree.isNamed, Tree.isNamed, h.element?_eq ha hkept]

end

/-! ## What the import rule finds -/

namespace Rule

section
variable {marker : String} {s : Sites} {config : ImportStatement} {page page' : Page}

/-- The row of a cell stays its row, if the cell is not lost. -/
theorem rowOf_of_framed (h : Framed marker s page.tree page'.tree) (hl : page.tree.Linked)
    {cell : Nat} (hcell : cell < page.tree.size) (hkept : ¬ s.Lost page.tree cell) :
    page'.rowOf cell = page.rowOf cell := by
  unfold Page.rowOf
  rw [h.ancestorNamed_eq hl hcell hkept, h.parent cell hcell hkept]
  cases hrow : (page.tree.ancestorNamed cell "tr").or (page.tree.parent cell) with
  | none => rfl
  | some row =>
    -- the row is above the cell, and so not lost
    have habove : row ∈ page.tree.ancestors cell := by
      rcases Option.or_eq_some_iff.1 hrow with hrow | ⟨-, hrow⟩
      · exact List.mem_of_find?_eq_some hrow
      · exact Tree.mem_ancestors_iff.2 ⟨row, hrow, .inl rfl⟩
    obtain ⟨hrow, hkept⟩ := (h.ancestors_eq hl hcell hkept).2 row habove
    rw [Option.filter_some, Option.filter_some, h.element?_eq hrow hkept]

/-- Where all tables are far from what was edited, the import rule finds the same row. -/
theorem importRow_of_framed (h : Framed marker s page.tree page'.tree) (hshaped : page.tree.Shaped)
    (hfar : ∀ table ∈ page.tables, s.Far page.tree table) :
    importRow config page' = importRow config page := by
  have htables : page'.tables = page.tables :=
    h.elementsNamed_eq hshaped.pos fun n hn => (hfar n hn).not_lost
  unfold importRow
  rw [htables, ← List.head?_filterMap, ← List.head?_filterMap]
  refine congrArg List.head? (List.filterMap_congr fun table htable => ?_)
  have hltable := (Tree.lt_of_mem_descendants (List.mem_filter.1 htable).1).2
  have hcells : page'.firstCell table = page.firstCell table :=
    congrArg List.head? (h.elementsNamed_of_far hshaped.linked hltable (hfar table htable) "td")
  rw [hcells]
  cases hcell : page.firstCell table with
  | none => rfl
  | some cell =>
    have hbelow := (element_of_mem_elementsNamed (List.mem_of_head? hcell)).1
    have hlcell := (Tree.lt_of_mem_descendants hbelow).2
    have hcellFar := (hfar table htable).of_mem_descendants hshaped.linked hbelow
    show (if (page'.tree.text cell).hasInfix config.marker then page'.rowOf cell else none) =
      if (page.tree.text cell).hasInfix config.marker then page.rowOf cell else none
    rw [h.text_of_far hshaped.linked hlcell hcellFar,
      rowOf_of_framed h hshaped.linked hlcell hcellFar.not_lost]

end

end Rule

/-! ## Rows apart from titles and headings -/

namespace Page

/-- Whether a node is an element of the page that is apart from each title and heading. -/
structure Removable (config : TitleSuffix) (page : Page) (row : Nat) : Prop where
  onPage : row ∈ page.tree.descendants Tree.root
  element : ∃ e, page.tree.element? row = some e
  apart : ∀ a ∈ page.tree.elementsNamed Tree.root "title" ++
    page.headings config.headingTag config.headingClass, page.tree.Apart a row

section
variable {config : TitleSuffix} {page : Page} {row : Nat}

/-- A title or heading that is left was one before, and is an element. -/
theorem mem_titles_headings_of_trims {page' : Page} (htrims : page'.tree.Trims page.tree) {a : Nat}
    (ha : a ∈ page'.tree.elementsNamed Tree.root "title" ++
      page'.headings config.headingTag config.headingClass) :
    a ∈ page.tree.elementsNamed Tree.root "title" ++
        page.headings config.headingTag config.headingClass ∧
      ∃ e, page'.tree.element? a = some e := by
  rcases List.mem_append.1 ha with ha | ha
  · obtain ⟨-, e, he, -⟩ := Rule.element_of_mem_elementsNamed ha
    exact ⟨List.mem_append_left _ (htrims.of_mem_elementsNamed ha).1, e, he⟩
  · obtain ⟨-, e, he, -⟩ := Rule.element_of_mem_elementsNamed (List.mem_filter.1 ha).1
    exact ⟨List.mem_append_right _ (mem_headings_of_trims htrims ha), e, he⟩

/-- An edit that brings no element below another leaves titles and headings apart from tables and
rows. -/
theorem Separate.of_trims (h : page.Separate config) {page' : Page}
    (htrims : page'.tree.Trims page.tree) : page'.Separate config := by
  intro a ha b hb
  obtain ⟨hold, ha⟩ := mem_titles_headings_of_trims htrims ha
  obtain ⟨tag, hb, hnamed⟩ : ∃ tag, b ∈ page'.tree.elementsNamed Tree.root tag ∧
      ∀ c ∈ page.tree.elementsNamed Tree.root tag,
        c ∈ page.tables ++ page.tree.elementsNamed Tree.root "tr" := by
    rcases List.mem_append.1 hb with hb | hb
    · exact ⟨"table", hb, fun c hc => List.mem_append_left _ hc⟩
    · exact ⟨"tr", hb, fun c hc => List.mem_append_right _ hc⟩
  obtain ⟨-, e, he, -⟩ := Rule.element_of_mem_elementsNamed hb
  exact (h a hold b (hnamed b (htrims.of_mem_elementsNamed hb).1)).of_trims htrims ha ⟨e, he⟩

/-- The row to remove is apart from each title and heading, also where it is no row by name. -/
theorem Separate.removable {marker : ImportStatement} (h : page.Separate config)
    (hshaped : page.tree.Shaped) (hrow : Rule.importRow marker page = some row) :
    page.Removable config row := by
  obtain ⟨table, htable, cell, hcell, -, hrowOf⟩ := Rule.exists_of_importRow hrow
  obtain ⟨hon, helement, -⟩ := Rule.importRow_cases hshaped.proper hrow
  have hbelow := (Rule.element_of_mem_elementsNamed (List.mem_of_head? hcell)).1
  have hfound := (Option.filter_eq_some_iff.1 hrowOf).1
  refine ⟨hon, helement, fun a ha => ?_⟩
  rcases Option.or_eq_some_iff.1 hfound with hfound | ⟨-, hparent⟩
  · exact h a ha row (List.mem_append_right _ (List.mem_filter.2 ⟨hon, List.find?_some hfound⟩))
  · -- a cell without a row has a parent that is the table or stands in it
    have htableApart := h a ha table (List.mem_append_left _ htable)
    obtain ⟨p, hp, hparent'⟩ := hshaped.linked.parent_of_mem_descendants hbelow
    obtain rfl : p = row := Option.some.inj (hparent'.symm.trans hparent)
    rcases hp with rfl | hp
    · exact htableApart
    · exact htableApart.of_mem_descendants hshaped.linked hp

theorem Removable.pos (h : page.Removable config row) : 0 < page.tree.size :=
  Nat.lt_of_le_of_lt (Nat.zero_le _) (Tree.lt_of_mem_descendants h.onPage).2

theorem Removable.framed (h : page.Removable config row) (hl : page.tree.Linked) :
    Framed "" { row := some row } page.tree (page.remove row).1.tree :=
  (framed_refl "" page.tree).remove rfl h.pos hl h.onPage h.element

theorem Removable.far (h : page.Removable config row) {a : Nat}
    (ha : a ∈ page.tree.elementsNamed Tree.root "title" ++
      page.headings config.headingTag config.headingClass) :
    Sites.Far { row := some row } page.tree a := by
  rintro id (hid | hid | hid)
  · cases hid
  · cases hid
  · obtain rfl := Option.some.inj hid
    exact (h.apart a ha).symm

theorem remove_fst (page : Page) (id : Nat) :
    (page.remove id).1 = { page with tree := (page.tree.detach id).1 } := rfl

theorem replaceText_fst (page : Page) (id : Nat) (pattern replacement : String) :
    (page.replaceText id pattern replacement).1 =
      { page with tree := (page.tree.replaceText id pattern replacement).1 } := rfl

/-! ### What is found when the row is removed -/

theorem Removable.titleNode_remove (h : page.Removable config row) (hl : page.tree.Linked) :
    (page.remove row).1.titleNode = page.titleNode :=
  congrArg List.head? ((h.framed hl).elementsNamed_eq h.pos fun _ hn =>
    (h.far (List.mem_append_left _ hn)).not_lost)

/-- The title keeps its text. -/
theorem Removable.title_remove (h : page.Removable config row) (hl : page.tree.Linked) :
    (page.remove row).1.title = page.title := by
  unfold Page.title
  rw [h.titleNode_remove hl]
  cases hid : page.titleNode with
  | none => rfl
  | some id =>
    have hfar := h.far (List.mem_append_left _ (List.mem_of_head? hid))
    exact congrArg some ((h.framed hl).text_of_far hl (lt_of_titleNode hid) hfar)

theorem Removable.headings_remove (h : page.Removable config row) (hl : page.tree.Linked) :
    (page.remove row).1.headings config.headingTag config.headingClass =
      page.headings config.headingTag config.headingClass :=
  (h.framed hl).headings_eq h.pos fun _ hn => (h.far (List.mem_append_right _ hn)).not_lost

/-! ### The title rule before and after the removal -/

/-- Titles and headings that are left are apart from what they were apart from. -/
theorem Removable.of_trims (h : page.Removable config row) {page' : Page}
    (htrims : page'.tree.Trims page.tree) (hon : row ∈ page'.tree.descendants Tree.root)
    (helement : ∃ e, page'.tree.element? row = some e) : page'.Removable config row := by
  refine ⟨hon, helement, fun a ha => ?_⟩
  obtain ⟨hold, ha⟩ := mem_titles_headings_of_trims htrims ha
  exact (h.apart a hold).of_trims htrims ha helement

/-- A row that may be removed may be removed when there is a new title. -/
theorem Removable.setTitle (h : page.Removable config row) (hl : page.tree.Linked)
    (title : String) : (page.setTitle title).1.Removable config row := by
  cases hid : page.titleNode with
  | none =>
    rw [setTitle_none hid]
    exact h
  | some id =>
    have hlt := lt_of_titleNode hid
    have hrow := (Tree.lt_of_mem_descendants h.onPage).2
    have hroot := page.tree.root_not_mem_descendants id
    have hnot := (h.apart id (List.mem_append_left _ (List.mem_of_head? hid))).not_above
    have hon : row ∈ (page.tree.setText id title).descendants Tree.root :=
      ((hl.cut_setText hlt title).mem_descendants_iff h.pos hroot hrow).2 ⟨h.onPage, hnot⟩
    have helement : ∃ e, (page.tree.setText id title).element? row = some e := by
      rw [Tree.element?, Tree.kind_setText hlt, if_neg (Nat.ne_of_lt hrow)]
      exact h.element
    rw [setTitle_some hid]
    show Removable config { page with tree := page.tree.setText id title } row
    exact h.of_trims (Tree.trims_setText hlt title) hon helement

theorem Removable.setTitle_remove (h : page.Removable config row) (hl : page.tree.Linked)
    (title : String) :
    ((page.remove row).1.setTitle title).1 = ((page.setTitle title).1.remove row).1 := by
  have hnode := h.titleNode_remove hl
  cases hid : page.titleNode with
  | none => rw [setTitle_none hid, setTitle_none (hnode.trans hid)]
  | some id =>
    have hapart := h.apart id (List.mem_append_left _ (List.mem_of_head? hid))
    have hnot : row ∉ page.tree.children id := fun hc =>
      hapart.not_above (Tree.mem_descendants_of_mem_children hc)
    have hrow := (Tree.lt_of_mem_descendants h.onPage).2
    have htree := hl.setText_detach (lt_of_titleNode hid) hrow hnot title
    rw [setTitle_some hid, setTitle_some (hnode.trans hid), remove_fst, remove_fst, htree]

theorem Removable.replaceText_remove (h : page.Removable config row) (hl : page.tree.Linked)
    {heading : Nat} (hheading : heading ∈ page.headings config.headingTag config.headingClass)
    (pattern replacement : String) :
    ((page.remove row).1.replaceText heading pattern replacement).1 =
      ((page.replaceText heading pattern replacement).1.remove row).1 := by
  have hapart := h.apart heading (List.mem_append_right _ hheading)
  have htree := hl.replaceText_detach hapart.not_above pattern replacement
  rw [remove_fst, remove_fst, replaceText_fst, replaceText_fst, htree]

end

end Page

/-- The title rule may run before or after the row is removed. -/
theorem Rule.stripTitleSuffix_remove {config : TitleSuffix} {page : Page} {row : Nat}
    (h : page.Removable config row) (hl : page.tree.Linked) :
    stripTitleSuffix config (page.remove row).1 =
      (((stripTitleSuffix config page).1.remove row).1, (stripTitleSuffix config page).2) := by
  unfold stripTitleSuffix
  rw [h.title_remove hl]
  cases page.title with
  | none => rfl
  | some title =>
    dsimp only
    by_cases hmarker : title.hasInfix config.marker = true
    · have hretitled := h.setTitle hl (title.replaceEach config.marker "")
      rw [if_pos hmarker, if_pos hmarker, h.setTitle_remove hl,
        hretitled.headings_remove (Page.linked_setTitle hl _)]
      cases hheading : ((page.setTitle (title.replaceEach config.marker "")).1.headings
          config.headingTag config.headingClass).head? with
      | none => rfl
      | some heading =>
        exact congrArg (·, true) (hretitled.replaceText_remove (Page.linked_setTitle hl _)
          (List.mem_of_head? hheading) config.marker "")
    · rw [if_neg hmarker, if_neg hmarker]

/-! ## Both rules -/

section
variable {config : Config} {page : Page}

/-- The title rule edits a title and a heading of the page. -/
theorem Rule.far_titleSuffix (hshaped : page.tree.Shaped) {n : Nat}
    (hn : ∀ a ∈ page.tree.elementsNamed Tree.root "title" ++
      page.headings config.titleSuffix.headingTag config.titleSuffix.headingClass,
      page.tree.Apart a n) : (titleSuffix.sites config page).Far page.tree n := by
  cases hfired : (titleSuffix.apply config page).2 with
  | false =>
    rw [sites_eq_none hshaped hfired]
    rintro id (hid | hid | hid) <;> cases hid
  | true =>
    rw [sites_titleSuffix hfired]
    rintro a (ha | ha | ha)
    · exact hn a (List.mem_append_left _ (List.mem_of_head? ha))
    · have hold := Page.mem_headings_of_trims (Page.trims_setTitle page _) (List.mem_of_head? ha)
      exact hn a (List.mem_append_right _ hold)
    · cases ha

/-- The import rule finds the row that it finds before the title rule runs. -/
theorem importRow_titleSuffix (hc : config.check = .ok ()) (hshaped : page.tree.Shaped)
    (hs : page.Separate config.titleSuffix) :
    Rule.importRow config.importStatement (Rule.titleSuffix.apply config page).1 =
      Rule.importRow config.importStatement page := by
  have hframed := Rule.framed_apply hc hshaped.pos
    (framed_refl config.titleSuffix.marker page.tree) hshaped (r := .titleSuffix)
    (fun _ => ⟨rfl, rfl⟩) fun _ => rfl
  refine Rule.importRow_of_framed hframed hshaped fun table htable => ?_
  exact Rule.far_titleSuffix hshaped fun a ha => hs a ha table (List.mem_append_left _ htable)

theorem Rule.apply_importStatement_none
    (h : importRow config.importStatement page = none) :
    importStatement.apply config page = (page, false) := by
  rw [Rule.apply, removeImportStatement, h]

theorem Rule.apply_importStatement_some (hshaped : page.tree.Shaped) {row : Nat}
    (h : importRow config.importStatement page = some row) :
    importStatement.apply config page = ((page.remove row).1, true) := by
  have hfired := (removeImportStatement_fires hshaped.proper h).1
  rw [removeImportStatement, h] at hfired
  rw [Rule.apply, removeImportStatement, h]
  exact Prod.ext rfl hfired

/-- Where no title and heading has to do with a table or row, the rules may run in either order. -/
theorem applyRules_swap (hc : config.check = .ok ()) (hshaped : page.tree.Shaped)
    (hs : page.Separate config.titleSuffix) :
    (applyRules config [.importStatement, .titleSuffix] page).1 =
        (applyRules config [.titleSuffix, .importStatement] page).1 ∧
      (applyRules config [.importStatement, .titleSuffix] page).2.Perm
        (applyRules config [.titleSuffix, .importStatement] page).2 := by
  have hsame := importRow_titleSuffix hc hshaped hs
  simp only [applyRules]
  cases hrow : Rule.importRow config.importStatement page with
  | none =>
    rw [Rule.apply_importStatement_none hrow, Rule.apply_importStatement_none (hsame.trans hrow)]
    exact ⟨rfl, .refl _⟩
  | some row =>
    have hremoved := Rule.stripTitleSuffix_remove (hs.removable hshaped hrow) hshaped.linked
    have hremoved : Rule.titleSuffix.apply config (page.remove row).1 =
        (((Rule.titleSuffix.apply config page).1.remove row).1,
          (Rule.titleSuffix.apply config page).2) := hremoved
    rw [Rule.apply_importStatement_some hshaped hrow, Rule.apply_importStatement_some
      (Rule.shaped_apply hc hshaped .titleSuffix) (hsame.trans hrow), hremoved]
    refine ⟨rfl, ?_⟩
    cases (Rule.titleSuffix.apply config page).2 with
    | false => exact .refl _
    | true => exact .swap _ _ _

/-- The first rule of a run fires in it just if it fires on the page. -/
theorem mem_applyRules_head {r : Rule} {rs : List Rule} (hr : r ∉ rs) :
    r ∈ (applyRules config (r :: rs) page).2 ↔ (r.apply config page).2 = true := by
  rw [mem_applyRules_cons, or_iff_left fun hmem => hr (mem_of_mem_applyRules hmem)]
  simp

/-- Rules do not look at the pipeline. -/
theorem applyRules_pipeline (pipeline : List RuleEntry) (rs : List Rule) :
    applyRules { config with pipeline } rs page = applyRules config rs page := by
  induction rs generalizing page with
  | nil => rfl
  | cons r rs ih =>
    have hrule : r.apply { config with pipeline } page = r.apply config page := by
      cases r <;> rfl
    simp only [applyRules, hrule, ih]

theorem fired_mend_pipeline (pipeline : List RuleEntry) :
    (mend { config with pipeline } page).2 =
      (applyRules config (activeRules pipeline) page).2 := by
  rw [fired_mend, applyRules_pipeline]

/-- Two pipelines leave the same page, if their rules leave the same page and the same rules fire,
in whichever order. -/
theorem mend_pipeline_congr {pipeline pipeline' : List RuleEntry}
    (hpage : (applyRules config (activeRules pipeline) page).1 =
      (applyRules config (activeRules pipeline') page).1)
    (hfired : (applyRules config (activeRules pipeline) page).2.Perm
      (applyRules config (activeRules pipeline') page).2) :
    (mend { config with pipeline } page).1 =
      (mend { config with pipeline := pipeline' } page).1 := by
  simp only [mend, applyRules_pipeline, hpage, hfired.isEmpty_eq]

/-- On a page that was read, in which no title and no heading that the title rule mends is, holds or
stands in a table or row, the two rules may run in either order: each fires just if it finds its
marker on the page that was read, and the pages are the same. -/
theorem mend_comm (hc : config.check = .ok ()) {path source : String} {t : Tree}
    (hp : parse source = .ok t) (hs : Page.Separate config.titleSuffix ⟨path, source, t, false⟩) :
    let page : Page := ⟨path, source, t, false⟩
    let titleFirst := mend { config with
      pipeline := [⟨"TitleSuffixStrip", true⟩, ⟨"ImportStatementRemoval", true⟩] } page
    let importFirst := mend { config with
      pipeline := [⟨"ImportStatementRemoval", true⟩, ⟨"TitleSuffixStrip", true⟩] } page
    (∀ r : Rule, (r ∈ titleFirst.2 ↔ r ∈ importFirst.2) ∧
        (r ∈ titleFirst.2 ↔ r.Finds config page)) ∧
      titleFirst.1 = importFirst.1 ∧ titleFirst.1.serialize = importFirst.1.serialize := by
  intro page titleFirst importFirst
  have hshaped : page.tree.Shaped := (sound_of_parse hp).shaped
  have htitle : activeRules [⟨"TitleSuffixStrip", true⟩, ⟨"ImportStatementRemoval", true⟩] =
      [.titleSuffix, .importStatement] := by decide
  have himport : activeRules [⟨"ImportStatementRemoval", true⟩, ⟨"TitleSuffixStrip", true⟩] =
      [.importStatement, .titleSuffix] := by decide
  obtain ⟨hpages, hperm⟩ := applyRules_swap hc hshaped hs
  have hpage : titleFirst.1 = importFirst.1 := by
    apply mend_pipeline_congr <;> rw [htitle, himport]
    · exact hpages.symm
    · exact hperm.symm
  have hfires : ∀ r : Rule, (r.apply config page).2 = true ↔ r.Finds config page :=
    Rule.apply_fires_iff hshaped
  refine ⟨fun r => ?_, hpage, congrArg Page.serialize hpage⟩
  have htitleFirst : titleFirst.2 = _ := fired_mend_pipeline _
  have himportFirst : importFirst.2 = _ := fired_mend_pipeline _
  rw [htitleFirst, himportFirst, htitle, himport, ← hperm.mem_iff]
  refine ⟨Iff.rfl, ?_⟩
  -- each rule is the first in one of the runs
  cases r with
  | titleSuffix =>
    have hhead : Rule.titleSuffix ∉ [Rule.importStatement] := by decide
    exact hperm.mem_iff.trans ((mem_applyRules_head hhead).trans (hfires .titleSuffix))
  | importStatement =>
    have hhead : Rule.importStatement ∉ [Rule.titleSuffix] := by decide
    exact (mem_applyRules_head hhead).trans (hfires .importStatement)

end

/-- The row stands around the table, and the title in the heading. -/
theorem mend_comm_outer_row :
    let config : Config :=
      { titleSuffix := { marker := "M" }, importStatement := { marker := "I" } }
    let source := "<h1 class=\"title\">aM<title>bM<b>c</b></title></h1>" ++
      "<tr>d<table><td>I</td></table></tr>e"
    ∃ t, parse source = .ok t ∧
      let page : Page := ⟨"", source, t, false⟩
      let titleFirst := mend { config with
        pipeline := [⟨"TitleSuffixStrip", true⟩, ⟨"ImportStatementRemoval", true⟩] } page
      let importFirst := mend { config with
        pipeline := [⟨"ImportStatementRemoval", true⟩, ⟨"TitleSuffixStrip", true⟩] } page
      page.Separate config.titleSuffix ∧
        titleFirst.2 = [.titleSuffix, .importStatement] ∧
        .titleSuffix ∈ importFirst.2 ∧ .importStatement ∈ importFirst.2 ∧
        titleFirst.1.serialize = "<h1 class=\"title\">a<title>bc</title></h1>e" ∧
        importFirst.1.serialize = "<h1 class=\"title\">a<title>bc</title></h1>e" := by
  intro config source
  have hcheck : Config.check
      { titleSuffix := { marker := "M" }, importStatement := { marker := "I" } } = .ok () := by rfl
  have hrun : ((parse source).toOption.map fun t =>
      let titleFirst := mend { config with
        pipeline := [⟨"TitleSuffixStrip", true⟩, ⟨"ImportStatementRemoval", true⟩] }
        ⟨"", source, t, false⟩
      (decide (Page.Separate config.titleSuffix ⟨"", source, t, false⟩), titleFirst.2,
        titleFirst.1.serialize)) =
      some (true, [.titleSuffix, .importStatement],
        "<h1 class=\"title\">a<title>bc</title></h1>e") := by
    decide +kernel
  obtain ⟨t, hp, hrun⟩ := exists_ok_of_map hrun
  simp only [Prod.mk.injEq, decide_eq_true_eq] at hrun
  obtain ⟨hseparate, hfired, hwritten⟩ := hrun
  obtain ⟨hrules, -, hsame⟩ := mend_comm hcheck hp hseparate
  refine ⟨t, hp, hseparate, hfired, ?_, ?_, hwritten, hsame.symm.trans hwritten⟩
  · exact (hrules .titleSuffix).1.1 (hfired ▸ List.mem_cons_self)
  · exact (hrules .importStatement).1.1 (hfired ▸ List.mem_cons_of_mem _ List.mem_cons_self)

end PageMend
