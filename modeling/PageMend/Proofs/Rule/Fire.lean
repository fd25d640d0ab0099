import PageMend.Rule
import PageMend.Proofs.Markup.Proper
import PageMend.Proofs.Page.Elements

/-!
# When a rule fires

A rule looks for its marker at one kind of place: the title, or the first cell of a table
(`Rule.Finds`). On a shaped tree it fires just when the marker is there (`apply_fires_iff`): the
cell has a row that is an element, and that row hangs below the root, so the row can be removed.

Whether a marker is found depends on the elements of the page and the text in them alone
(`finds_iff_findsIn`), and not on how the text is split into nodes (`findsIn_normalize`).
-/

namespace PageMend

open Markup

/-! ## Finding a marker -/

namespace Rule

/-- Whether the marker of a rule is where the rule looks for it. -/
def Finds (config : Config) (page : Page) : Rule → Prop
  | .titleSuffix => ∃ title, page.title = some title ∧
      title.hasInfix config.titleSuffix.marker = true
  | .importStatement => ∃ table ∈ page.tables, ∃ cell, page.firstCell table = some cell ∧
      (page.tree.text cell).hasInfix config.importStatement.marker = true

instance (config : Config) (page : Page) (r : Rule) : Decidable (r.Finds config page) :=
  match r with
  | .titleSuffix =>
    decidable_of_iff (page.title.any (·.hasInfix config.titleSuffix.marker) = true) <| by
      rw [Option.any_eq_true]
      exact ⟨fun ⟨title, h⟩ => ⟨title, h⟩, fun ⟨title, h⟩ => ⟨title, h⟩⟩
  | .importStatement =>
    decidable_of_iff (∃ table ∈ page.tables, (page.firstCell table).any
        (fun cell => (page.tree.text cell).hasInfix config.importStatement.marker) = true) <| by
      constructor
      · rintro ⟨table, htable, h⟩
        obtain ⟨cell, hcell, h⟩ := (Option.any_eq_true _ _).1 h
        exact ⟨table, htable, cell, hcell, h⟩
      · rintro ⟨table, htable, cell, hcell, h⟩
        exact ⟨table, htable, (Option.any_eq_true _ _).2 ⟨cell, hcell, h⟩⟩

/-- The same of a forest: what a rule looks for among its elements. -/
def FindsIn (config : Config) (elements : List (Element × Forest Kind)) : Rule → Prop
  | .titleSuffix => ∃ p, elements.find? (·.1.hasName "title") = some p ∧
      Text.occursIn config.titleSuffix.marker.toList p.2.text = true
  | .importStatement => ∃ p ∈ elements, p.1.hasName "table" = true ∧
      ∃ f, p.2.firstNamed "td" = some f ∧
        Text.occursIn config.importStatement.marker.toList f.text = true

section
variable {config : Config} {page : Page}

theorem element_of_mem_elementsNamed {t : Tree} {id n : Nat} {tag : String}
    (h : n ∈ t.elementsNamed id tag) :
    n ∈ t.descendants id ∧ ∃ e, t.element? n = some e ∧ e.hasName tag = true := by
  obtain ⟨hn, hnamed⟩ := List.mem_filter.1 h
  exact ⟨hn, Tree.exists_of_isNamed hnamed⟩

theorem hasInfix_text {t : Tree} {id n : Nat} {tag marker : String}
    (h : n ∈ t.elementsNamed id tag) :
    (t.text n).hasInfix marker = Text.occursIn marker.toList (t.forest n).text := by
  obtain ⟨-, e, he, -⟩ := element_of_mem_elementsNamed h
  rw [String.hasInfix, Tree.toList_text (Tree.text?_of_element? he)]

/-- What a rule finds on a page, it finds in the forest of the page. -/
theorem finds_iff_findsIn (r : Rule) :
    r.Finds config page ↔ r.FindsIn config (page.tree.forest Tree.root).elements := by
  cases r with
  | titleSuffix =>
    have hfirst := Tree.firstNamed_forest page.tree Tree.root "title"
    rw [Forest.firstNamed] at hfirst
    constructor
    · rintro ⟨title, ht, hmarker⟩
      obtain ⟨id, hid, rfl⟩ := Option.map_eq_some_iff.1 ht
      rw [show (page.tree.elementsNamed Tree.root "title").head? = some id from hid] at hfirst
      obtain ⟨p, hp, hforest⟩ := Option.map_eq_some_iff.1 hfirst
      rw [hasInfix_text (List.mem_of_head? hid)] at hmarker
      exact ⟨p, hp, by rw [hforest]; exact hmarker⟩
    · rintro ⟨p, hp, hmarker⟩
      rw [hp] at hfirst
      obtain ⟨id, hid, hforest⟩ := Option.map_eq_some_iff.1 hfirst.symm
      refine ⟨page.tree.text id, Option.map_eq_some_iff.2 ⟨id, hid, rfl⟩, ?_⟩
      rw [hasInfix_text (List.mem_of_head? hid), hforest]
      exact hmarker
  | importStatement =>
    constructor
    · rintro ⟨table, htable, cell, hcell, hmarker⟩
      obtain ⟨hdesc, e, he, hname⟩ := element_of_mem_elementsNamed htable
      refine ⟨(e, page.tree.forest table), Tree.mem_elements_forest.2 ⟨table, hdesc, he, rfl⟩,
        hname, page.tree.forest cell, ?_, ?_⟩
      · show (page.tree.forest table).firstNamed "td" = _
        rw [Tree.firstNamed_forest]
        exact Option.map_eq_some_iff.2 ⟨cell, hcell, rfl⟩
      · rwa [hasInfix_text (List.mem_of_head? hcell)] at hmarker
    · rintro ⟨p, hp, hname, f, hf, hmarker⟩
      obtain ⟨table, hdesc, he, hbelow⟩ := Tree.mem_elements_forest.1 hp
      have hf : p.2.firstNamed "td" = some f := hf
      rw [← hbelow, Tree.firstNamed_forest] at hf
      obtain ⟨cell, hcell, rfl⟩ := Option.map_eq_some_iff.1 hf
      refine ⟨table, ?_, cell, hcell, ?_⟩
      · refine List.mem_filter.2 ⟨hdesc, ?_⟩
        rw [Tree.isNamed, he]
        exact hname
      · rw [hasInfix_text (List.mem_of_head? hcell)]
        exact hmarker

theorem firstNamed_normalize {f : Forest Kind} (h : f.Bare) (tag : String) :
    f.normalize.firstNamed tag = (f.firstNamed tag).map Forest.normalize := by
  rw [Forest.firstNamed, Forest.firstNamed, Forest.elements_normalize h, List.find?_map,
    Option.map_map, Option.map_map]
  rfl

theorem text_normalize_of_firstNamed {f g : Forest Kind} {tag : String} (h : f.Bare)
    (hg : f.firstNamed tag = some g) : g.normalize.text = g.text := by
  obtain ⟨q, hq, rfl⟩ := Option.map_eq_some_iff.1 hg
  exact Forest.text_normalize (h.of_mem_elements (List.mem_of_find?_eq_some hq))

/-- Empty texts and texts side by side hide no marker. -/
theorem findsIn_normalize {f : Forest Kind} (h : f.Bare) (r : Rule) :
    r.FindsIn config f.normalize.elements ↔ r.FindsIn config f.elements := by
  rw [Forest.elements_normalize h]
  cases r with
  | titleSuffix =>
    show (∃ p, (f.elements.map _).find? _ = some p ∧ _) ↔ ∃ p, f.elements.find? _ = some p ∧ _
    rw [List.find?_map]
    constructor
    · rintro ⟨p, hp, hmarker⟩
      obtain ⟨q, hq, rfl⟩ := Option.map_eq_some_iff.1 hp
      have hbare := h.of_mem_elements (List.mem_of_find?_eq_some hq)
      exact ⟨q, hq, by rwa [Forest.text_normalize hbare] at hmarker⟩
    · rintro ⟨q, hq, hmarker⟩
      have hbare := h.of_mem_elements (List.mem_of_find?_eq_some hq)
      exact ⟨_, Option.map_eq_some_iff.2 ⟨q, hq, rfl⟩, by rwa [Forest.text_normalize hbare]⟩
  | importStatement =>
    constructor
    · rintro ⟨p, hp, hname, c, hc, hmarker⟩
      obtain ⟨q, hq, rfl⟩ := List.mem_map.1 hp
      have hbare := h.of_mem_elements hq
      rw [firstNamed_normalize hbare] at hc
      obtain ⟨d, hd, rfl⟩ := Option.map_eq_some_iff.1 hc
      rw [text_normalize_of_firstNamed hbare hd] at hmarker
      exact ⟨q, hq, hname, d, hd, hmarker⟩
    · rintro ⟨q, hq, hname, d, hd, hmarker⟩
      have hbare := h.of_mem_elements hq
      refine ⟨_, List.mem_map_of_mem hq, hname, d.normalize, ?_, ?_⟩
      · rw [firstNamed_normalize hbare, hd]
        rfl
      · rwa [text_normalize_of_firstNamed hbare hd]

/-! ## Firing -/

/-- The first cell of a table on a proper page has a row: an element on the page, above the cell. -/
theorem exists_rowOf (h : page.tree.Proper) {table cell : Nat} (htable : table ∈ page.tables)
    (hcell : page.firstCell table = some cell) :
    ∃ row, page.rowOf cell = some row ∧ (∃ e, page.tree.element? row = some e) ∧
      row ∈ page.tree.descendants Tree.root ∧ cell ∈ page.tree.descendants row := by
  obtain ⟨hdesc, e, he, -⟩ := element_of_mem_elementsNamed htable
  have hmem : cell ∈ page.tree.descendants table :=
    (element_of_mem_elementsNamed (List.mem_of_head? hcell)).1
  have hroot : cell ∈ page.tree.descendants Tree.root := Tree.mem_descendants_trans hdesc hmem
  obtain ⟨p, -, hp⟩ := h.linked.parent_of_mem_descendants hmem
  have hparent := h.exists_element hmem ⟨e, he⟩ hp
  -- the row is a node above the cell, and it is an element
  obtain ⟨row, hrow, helement, habove⟩ : ∃ row,
      ((page.tree.ancestorNamed cell "tr").or (page.tree.parent cell)) = some row ∧
        (∃ e, page.tree.element? row = some e) ∧ row ∈ page.tree.ancestors cell := by
    cases ha : page.tree.ancestorNamed cell "tr" with
    | some row =>
      obtain ⟨e, he, -⟩ := Tree.exists_of_isNamed (List.find?_some ha)
      exact ⟨row, rfl, ⟨e, he⟩, List.mem_of_find?_eq_some ha⟩
    | none => exact ⟨p, hp, hparent, Tree.mem_ancestors_iff.2 ⟨p, hp, .inl rfl⟩⟩
  refine ⟨row, ?_, helement, ?_, h.linked.mem_descendants_of_mem_ancestors habove⟩
  · obtain ⟨e', he'⟩ := helement
    rw [Page.rowOf, hrow, Option.filter_some, he']
    rfl
  · rcases h.linked.mem_of_mem_ancestors hroot habove with rfl | hon
    · obtain ⟨e', he'⟩ := helement
      rw [Tree.element?, h.root] at he'
      cases he'
    · exact hon

theorem stripTitleSuffix_fires_iff :
    (stripTitleSuffix config.titleSuffix page).2 = true ↔ titleSuffix.Finds config page := by
  show _ ↔ ∃ title, page.title = _ ∧ _
  unfold stripTitleSuffix
  cases page.title with
  | none => simp
  | some title =>
    by_cases hmarker : title.hasInfix config.titleSuffix.marker
    · simp only [hmarker, if_true]
      split <;> simp [hmarker]
    · simp [hmarker]

/-- The row to remove is that of the first cell of a table, and the cell holds the marker. -/
theorem exists_of_importRow {marker : ImportStatement} {row : Nat}
    (h : importRow marker page = some row) :
    ∃ table ∈ page.tables, ∃ cell, page.firstCell table = some cell ∧
      (page.tree.text cell).hasInfix marker.marker = true ∧ page.rowOf cell = some row := by
  obtain ⟨table, htable, hrow⟩ := List.exists_of_findSome?_eq_some h
  obtain ⟨cell, hcell, hrow⟩ := Option.bind_eq_some_iff.1 hrow
  split at hrow
  · rename_i hmarker
    exact ⟨table, htable, cell, hcell, hmarker, hrow⟩
  · cases hrow

/-- A table whose first cell holds the marker and has a row is not passed over. -/
theorem importRow_ne_none {marker : ImportStatement} {table cell row : Nat}
    (htable : table ∈ page.tables) (hcell : page.firstCell table = some cell)
    (hmarker : (page.tree.text cell).hasInfix marker.marker = true)
    (hrow : page.rowOf cell = some row) : importRow marker page ≠ none := by
  intro hnone
  have hpassed := List.findSome?_eq_none_iff.1 hnone table htable
  rw [hcell] at hpassed
  have hpassed : (if (page.tree.text cell).hasInfix marker.marker = true then page.rowOf cell
    else none) = none := hpassed
  rw [if_pos hmarker, hrow] at hpassed
  cases hpassed

/-- The row to remove is an element on the page, with the cell that holds the marker below it. -/
theorem importRow_cases {marker : ImportStatement} {row : Nat} (h : page.tree.Proper)
    (hrow : importRow marker page = some row) :
    row ∈ page.tree.descendants Tree.root ∧ (∃ e, page.tree.element? row = some e) ∧
      ∃ table cell, cell ∈ page.tree.elementsNamed table "td" ∧
        cell ∈ page.tree.descendants row ∧
        (page.tree.text cell).hasInfix marker.marker = true := by
  obtain ⟨table, htable, cell, hcell, hmarker, hrowOf⟩ := exists_of_importRow hrow
  obtain ⟨row', hrowOf', helement, hon, hbelow⟩ := exists_rowOf h htable hcell
  obtain rfl : row' = row := Option.some.inj (hrowOf'.symm.trans hrowOf)
  exact ⟨hon, helement, table, cell, List.mem_of_head? hcell, hbelow, hmarker⟩

/-- What the import rule does when it fires: it unlinks the row. -/
theorem removeImportStatement_fires {marker : ImportStatement} {row : Nat} (h : page.tree.Proper)
    (hrow : importRow marker page = some row) :
    (removeImportStatement marker page).2 = true ∧
      (removeImportStatement marker page).1.tree = (page.tree.detach row).1 := by
  obtain ⟨hon, -⟩ := importRow_cases h hrow
  obtain ⟨p, -, hp⟩ := h.linked.parent_of_mem_descendants hon
  simp only [removeImportStatement, hrow]
  refine ⟨?_, rfl⟩
  show (page.tree.detach row).2 = true
  rw [Tree.detach_eq hp]

/-- The import rule fires on a row only. -/
theorem exists_importRow_of_fires {marker : ImportStatement}
    (hfired : (removeImportStatement marker page).2 = true) :
    ∃ row, importRow marker page = some row := by
  cases hrow : importRow marker page with
  | none =>
    simp only [removeImportStatement, hrow] at hfired
    cases hfired
  | some row => exact ⟨row, rfl⟩

theorem removeImportStatement_fires_iff (h : page.tree.Proper) :
    (removeImportStatement config.importStatement page).2 = true ↔
      importStatement.Finds config page := by
  constructor
  · intro hfired
    obtain ⟨row, hrow⟩ := exists_importRow_of_fires hfired
    obtain ⟨table, htable, cell, hcell, hmarker, -⟩ := exists_of_importRow hrow
    exact ⟨table, htable, cell, hcell, hmarker⟩
  · rintro ⟨table, htable, cell, hcell, hmarker⟩
    obtain ⟨row, hrow, -⟩ := exists_rowOf h htable hcell
    -- the row that is removed may be that of another table in front of this one
    obtain ⟨found, hfound⟩ := Option.ne_none_iff_exists'.1
      (importRow_ne_none htable hcell hmarker hrow)
    exact (removeImportStatement_fires h hfound).1

/-- On a shaped page, a rule fires just when its marker is there. -/
theorem apply_fires_iff (h : page.tree.Shaped) (r : Rule) :
    (r.apply config page).2 = true ↔ r.Finds config page := by
  cases r with
  | titleSuffix => exact stripTitleSuffix_fires_iff
  | importStatement => exact removeImportStatement_fires_iff h.proper

end

end Rule

end PageMend
