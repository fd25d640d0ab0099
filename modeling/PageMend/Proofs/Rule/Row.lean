import PageMend.Proofs.Markup.Apart
import PageMend.Proofs.Markup.Around
import PageMend.Proofs.Markup.Order
import PageMend.Proofs.Rule.Mendable

/-!
# The row that the import rule removes

A page is reached if it was read and rules were applied to it, whatever their markers
(`Page.Reached`). Its tree is proper (`Page.Reached.proper`), so the first cell of a table always
has a row, and unlinking the row takes one piece out of the text.

`Tree.IsRowOf` says which row belongs to a cell. The import rule removes the row of the first cell
of the first table that states an import there (`removeImportStatement_cuts_row`). The search for
the row climbs from the cell and does not stop at the table (`Page.EndsWithin`). So it takes the
table away with the row that the table stands in, if the table has no row around the cell
(`removeImportStatement_inside_iff`).
-/

namespace PageMend

open Markup

/-! ## Pages that rules were applied to -/

/-- A page was read, and rules were applied to it, of whatever configurations. -/
inductive Page.Reached : Page → Prop
  | read {path source : String} {t : Tree} :
      parse source = .ok t → Reached ⟨path, source, t, false⟩
  | apply {page : Page} (config : Config) (r : Rule) :
      Reached page → Reached (r.apply config page).1
  | modified {page : Page} : Reached page → Reached { page with modified := true }

namespace Rule

/-- A rule keeps a page proper. -/
theorem proper_apply {page : Page} (config : Config) (h : page.tree.Proper) (r : Rule) :
    (r.apply config page).1.tree.Proper := by
  cases r with
  | titleSuffix =>
    show (stripTitleSuffix config.titleSuffix page).1.tree.Proper
    unfold stripTitleSuffix
    split
    · exact h
    · split
      · dsimp only
        split
        · exact Page.proper_setTitle h _
        · exact (Page.proper_setTitle h _).replaceText ..
      · exact h
  | importStatement =>
    show (removeImportStatement config.importStatement page).1.tree.Proper
    unfold removeImportStatement
    split
    · exact h
    · exact h.detach _

end Rule

theorem Page.Reached.proper {page : Page} (h : page.Reached) : page.tree.Proper := by
  induction h with
  | read hp => exact (sound_of_parse hp).shaped.proper
  | apply config r _ ih => exact Rule.proper_apply config ih r
  | modified _ ih => exact ih

/-! ## The row of a cell -/

namespace Markup.Tree

/-- Which node is the row of a cell. -/
inductive IsRowOf (t : Tree) (cell : Nat) : Nat → Prop
  /-- It is a row above the cell, and there is none in between. -/
  | nearest {row : Nat} : row ∈ t.ancestors cell → t.isNamed "tr" row = true →
      (∀ a ∈ t.ancestors cell, t.isNamed "tr" a = true → a = row ∨ a ∈ t.ancestors row) →
      IsRowOf t cell row
  /-- There is no row above the cell, and an element holds it. -/
  | parent {row : Nat} {e : Element} : (∀ a ∈ t.ancestors cell, t.isNamed "tr" a = false) →
      t.parent cell = some row → t.element? row = some e → IsRowOf t cell row

theorem not_isNamed_of_isNamed {t : Tree} {tag other : String} {n : Nat}
    (h : t.isNamed tag n = true) (hother : sameName tag other = false) :
    t.isNamed other n = false := by
  obtain ⟨e, he, hname⟩ := exists_of_isNamed h
  rw [isNamed, he]
  show sameName e.name other = false
  rw [sameName_congr hname, hother]

/-- A cell has one row. -/
theorem IsRowOf.unique {t : Tree} {cell row row' : Nat} (h : t.IsRowOf cell row)
    (h' : t.IsRowOf cell row') : row = row' := by
  cases h with
  | nearest habove hnamed hnear =>
    cases h' with
    | nearest habove' hnamed' hnear' =>
      rcases hnear row' habove' hnamed' with heq | hlt
      · exact heq.symm
      · refine (hnear' row habove hnamed).resolve_right fun hgt => ?_
        exact Nat.lt_asymm (lt_of_mem_ancestors hlt) (lt_of_mem_ancestors hgt)
    | parent hnone _ _ => rw [hnone row habove] at hnamed; cases hnamed
  | parent hnone hparent _ =>
    cases h' with
    | nearest habove' hnamed' _ => rw [hnone row' habove'] at hnamed'; cases hnamed'
    | parent _ hparent' _ => exact Option.some.inj (hparent.symm.trans hparent')

end Markup.Tree

theorem Page.isRowOf_of_rowOf {page : Page} {cell row : Nat} (h : page.rowOf cell = some row) :
    page.tree.IsRowOf cell row := by
  obtain ⟨hrow, helement⟩ := Option.filter_eq_some_iff.1 h
  cases ha : page.tree.ancestorNamed cell "tr" with
  | some above =>
    rw [ha] at hrow
    obtain rfl := Option.some.inj hrow
    obtain ⟨hnamed, front, back, hsplit, hfront⟩ := List.find?_eq_some_iff_append.1 ha
    refine .nearest (List.mem_of_find?_eq_some ha) hnamed fun a habove hn => ?_
    rw [hsplit] at habove
    -- in front of the nearest row there is no other
    rcases List.mem_append.1 habove with hmem | hmem
    · have hnot := hfront a hmem
      rw [hn] at hnot
      cases hnot
    · rw [← Tree.ancestors_split hsplit]
      exact List.mem_cons.1 hmem
  | none =>
    rw [ha] at hrow
    obtain ⟨e, he⟩ := Option.isSome_iff_exists.1 helement
    exact .parent (fun a habove => Bool.eq_false_iff.2 (List.find?_eq_none.1 ha a habove)) hrow he

/-- Whether a table states an import: its first cell holds the marker. -/
def Page.States (config : ImportStatement) (page : Page) (table : Nat) : Prop :=
  ∃ cell, page.firstCell table = some cell ∧ (page.tree.text cell).hasInfix config.marker = true

/-- Whether the search for the row of a cell ends in the table: a row in the table holds the cell,
or there is no row above the table. -/
def Page.EndsWithin (page : Page) (table cell : Nat) : Prop :=
  (∃ tr ∈ page.tree.elementsNamed table "tr", cell ∈ page.tree.descendants tr) ∨
    page.tree.ancestorNamed table "tr" = none

instance (config : ImportStatement) (page : Page) (table : Nat) :
    Decidable (page.States config table) :=
  decidable_of_iff ((page.firstCell table).any
    (fun cell => (page.tree.text cell).hasInfix config.marker) = true) (by
      rw [Option.any_eq_true]
      exact ⟨fun ⟨cell, h⟩ => ⟨cell, h⟩, fun ⟨cell, h⟩ => ⟨cell, h⟩⟩)

/-! ## What is removed -/

namespace Rule

section
variable {page : Page} {config : ImportStatement} {left right : List Nat} {table : Nat}

/-- The rule removes the row of the first cell of the first table that states an import. -/
theorem removeImportStatement_eq_detach (h : page.tree.Proper)
    (hsplit : page.tables = left ++ table :: right)
    (hfirst : ∀ other ∈ left, ¬ page.States config other) (hstates : page.States config table) :
    ∃ cell row, page.firstCell table = some cell ∧ page.tree.IsRowOf cell row ∧
      (∃ e, page.tree.element? row = some e) ∧ row ∈ page.tree.descendants Tree.root ∧
      cell ∈ page.tree.descendants row ∧
      removeImportStatement config page =
        ({ page with tree := (page.tree.detach row).1 }, true) := by
  obtain ⟨cell, hcell, hmarker⟩ := hstates
  have htable : table ∈ page.tables := hsplit ▸ List.mem_append_cons_self
  obtain ⟨row, hrow, helement, hon, hbelow⟩ := exists_rowOf h htable hcell
  have hfound : importRow config page = some row := by
    have hpassed : left.findSome? (fun other => do
        let cell ← page.firstCell other
        if (page.tree.text cell).hasInfix config.marker then page.rowOf cell else none) = none := by
      refine List.findSome?_eq_none_iff.2 fun other hother => ?_
      refine Option.bind_eq_none_iff.2 fun c hc => if_neg fun hm => ?_
      exact hfirst other hother ⟨c, hc, hm⟩
    rw [importRow, hsplit, List.findSome?_append, hpassed, List.findSome?_cons, hcell]
    simp [hmarker, hrow]
  obtain ⟨p, -, hp⟩ := h.linked.parent_of_mem_descendants hon
  refine ⟨cell, row, hcell, Page.isRowOf_of_rowOf hrow, helement, hon, hbelow, ?_⟩
  rw [removeImportStatement, hfound]
  show ({ page with tree := (page.tree.detach row).1 }, (page.tree.detach row).2) = _
  rw [Tree.detach_eq hp]

/-- The import rule fires just when a table states an import in its first cell. It then takes the
row of that cell out of the text, for the first such table, and nothing else; if there is no such
table it leaves the page as it is. -/
theorem removeImportStatement_cuts_row (h : page.Reached) (config : ImportStatement) :
    let after := (removeImportStatement config page).1
    ((removeImportStatement config page).2 = true ↔
        ∃ table ∈ page.tables, page.States config table) ∧
      (∀ left table right, page.tables = left ++ table :: right →
        (∀ other ∈ left, ¬ page.States config other) → page.States config table →
        ∃ cell row, page.firstCell table = some cell ∧ page.tree.IsRowOf cell row ∧
          after = { page with tree := (page.tree.detach row).1 } ∧
          ∃ front back, page.serialize = front ++ page.tree.write row ++ back ∧
            after.serialize = front ++ back) ∧
      ((∀ table ∈ page.tables, ¬ page.States config table) → after = page) := by
  intro after
  let configs : Config := { importStatement := config }
  have hfires : (removeImportStatement configs.importStatement page).2 = true ↔
      ∃ table ∈ page.tables, page.States configs.importStatement table :=
    removeImportStatement_fires_iff h.proper
  refine ⟨hfires, fun left table right hsplit hfirst hstates => ?_, fun hnone => ?_⟩
  · obtain ⟨cell, row, hcell, hrow, helement, hon, -, hresult⟩ :=
      removeImportStatement_eq_detach h.proper hsplit hfirst hstates
    have hafter : after = { page with tree := (page.tree.detach row).1 } :=
      congrArg Prod.fst hresult
    obtain ⟨front, back, hbefore, hwritten⟩ := h.proper.exists_detach hon helement
    refine ⟨cell, row, hcell, hrow, hafter, front, back, hbefore, ?_⟩
    rw [hafter]
    exact hwritten
  · have hfired : (importStatement.apply configs page).2 = false := by
      refine Bool.eq_false_iff.2 fun hfired => ?_
      obtain ⟨table, htable, hstates⟩ := hfires.1 hfired
      exact hnone table htable hstates
    exact apply_eq_self hfired

/-- The title has lost its marker before, the second table states an import, and the marker is split
by markup. -/
theorem removeImportStatement_cuts_row_bold :
    let source := "<title>a QML Type</title><table><tr><td>b</td></tr></table><div><table><tr>" ++
      "<td>Import <b>Statement:</b></td><td/></tr></table></div>"
    ∃ t, parse source = .ok t ∧
      let page := (titleSuffix.apply {} ⟨"", source, t, false⟩).1
      page.Reached ∧ (removeImportStatement {} page).2 = true ∧
        page.tree.write 9 = "<tr><td>Import <b>Statement:</b></td><td/></tr>" ∧
        ∃ front back, page.serialize = front ++ page.tree.write 9 ++ back ∧
          (removeImportStatement {} page).1.serialize = front ++ back := by
  intro source
  have hrun : ((parse source).toOption.map fun t =>
      let page := (titleSuffix.apply {} ⟨"", source, t, false⟩).1
      decide (page.tables = [3, 8] ∧ ¬ page.States {} 3 ∧ page.States {} 8 ∧
        page.firstCell 8 = some 10 ∧ page.rowOf 10 = some 9 ∧
        page.tree.write 9 = "<tr><td>Import <b>Statement:</b></td><td/></tr>")) = some true := by
    decide +kernel
  obtain ⟨t, hp, hrun⟩ := exists_ok_of_map hrun
  simp only [decide_eq_true_eq] at hrun
  obtain ⟨htables, hother, hstates, hcell, hrow, hwritten⟩ := hrun
  have hread : Page.Reached ⟨"", source, t, false⟩ := .read hp
  have hreached := hread.apply {} .titleSuffix
  obtain ⟨hfires, hcut, -⟩ := removeImportStatement_cuts_row hreached {}
  have hfired := hfires.2 ⟨8, by rw [htables]; decide, hstates⟩
  obtain ⟨cell, row, hcell', hrow', -, hblock⟩ := hcut [3] 8 [] htables
    (fun other hmem => List.mem_singleton.1 hmem ▸ hother) hstates
  -- the row that the theorem speaks of is the one that was found
  obtain rfl := Option.some.inj (hcell'.symm.trans hcell)
  obtain rfl := hrow'.unique (Page.isRowOf_of_rowOf hrow)
  exact ⟨t, hp, hreached, hfired, hwritten, hblock⟩

/-! ## Whether the table stays -/

/-- The row is at or below the table just when the search for it ends there. -/
theorem mem_table_iff (h : page.tree.Linked) {cell row : Nat} (htable : table ∈ page.tables)
    (hcell : page.firstCell table = some cell) (hrow : page.tree.IsRowOf cell row) :
    row ∈ table :: page.tree.descendants table ↔ page.EndsWithin table cell := by
  have hmem : cell ∈ page.tree.descendants table :=
    (element_of_mem_elementsNamed (List.mem_of_head? hcell)).1
  have hnotrow : page.tree.isNamed "tr" table = false :=
    Tree.not_isNamed_of_isNamed (List.mem_filter.1 htable).2 (by decide)
  cases hrow with
  | nearest habove hnamed hnear =>
    have hne : row ≠ table := by
      rintro rfl
      rw [hnamed] at hnotrow
      cases hnotrow
    have hbelow := h.mem_descendants_of_mem_ancestors habove
    constructor
    · intro hrow
      have hrow := (List.mem_cons.1 hrow).resolve_left hne
      exact .inl ⟨row, List.mem_filter.2 ⟨hrow, hnamed⟩, hbelow⟩
    · rintro (⟨tr, htr, hcelltr⟩ | hnone)
      · -- a row in the table is the nearest one, or the nearest one is below it
        obtain ⟨htr, hnamed'⟩ := List.mem_filter.1 htr
        refine List.mem_cons_of_mem _ ?_
        rcases hnear tr (h.mem_ancestors_iff_mem_descendants.2 hcelltr) hnamed' with rfl | hlt
        · exact htr
        · exact Tree.mem_descendants_trans htr (h.mem_descendants_of_mem_ancestors hlt)
      · rcases h.comparable (.inr hbelow) (.inr hmem) with heq | hin | hout
        · exact absurd heq hne
        · exact List.mem_cons_of_mem _ hin
        · have hup := h.mem_ancestors_iff_mem_descendants.2 hout
          exact absurd hnamed (List.find?_eq_none.1 hnone row hup)
  | parent hnone hparent _ =>
    obtain ⟨p, hp, hcellp⟩ := h.parent_of_mem_descendants hmem
    obtain rfl : p = row := Option.some.inj (hcellp.symm.trans hparent)
    refine iff_of_true (List.mem_cons.2 hp) (.inr (List.find?_eq_none.2 fun a habove hnamed => ?_))
    have hcella : cell ∈ page.tree.descendants a :=
      Tree.mem_descendants_trans (h.mem_descendants_of_mem_ancestors habove) hmem
    rw [hnone a (h.mem_ancestors_iff_mem_descendants.2 hcella)] at hnamed
    cases hnamed

/-- The rule takes nothing away but what is at or below the table that states the import, just when
the search for its row ends in the table. Otherwise it takes the table away with what is around it
in a row. -/
theorem removeImportStatement_inside_iff (h : page.Reached)
    (hsplit : page.tables = left ++ table :: right)
    (hfirst : ∀ other ∈ left, ¬ page.States config other) (hstates : page.States config table) :
    let after := (removeImportStatement config page).1
    ∃ cell row, page.firstCell table = some cell ∧ page.tree.IsRowOf cell row ∧
      (removeImportStatement config page).2 = true ∧
      after.tree.descendants Tree.root =
        (page.tree.descendants Tree.root).filter (· ∉ row :: page.tree.descendants row) ∧
      (∀ n, after.tree.kind n = page.tree.kind n) ∧
      ((∀ n ∈ page.tree.descendants Tree.root, n ∉ after.tree.descendants Tree.root →
          n ∈ table :: page.tree.descendants table) ↔
        page.EndsWithin table cell) ∧
      (¬ page.EndsWithin table cell → table ∈ page.tree.descendants row) := by
  obtain ⟨cell, row, hcell, hrow, -, hon, hbelow, hresult⟩ :=
    removeImportStatement_eq_detach h.proper hsplit hfirst hstates
  intro after
  have hafter : after = { page with tree := (page.tree.detach row).1 } :=
    congrArg Prod.fst hresult
  have hlinked := h.proper.linked
  have htable : table ∈ page.tables := hsplit ▸ List.mem_append_cons_self
  have hwithin := mem_table_iff hlinked htable hcell hrow
  have hleft := hlinked.descendants_detach hon
  refine ⟨cell, row, hcell, hrow, congrArg Prod.snd hresult, ?_, fun n => ?_, ?_, fun hout => ?_⟩
  · rw [hafter]
    exact hleft
  · rw [hafter]
    exact Tree.kind_detach ..
  · rw [← hwithin, hafter, hleft]
    constructor
    · exact fun hall => hall row hon (by simp)
    · intro hrow n hn hlost
      have hgone : n ∈ row :: page.tree.descendants row := by
        by_contra hkept
        exact hlost (List.mem_filter.2 ⟨hn, by simpa using hkept⟩)
      rcases List.mem_cons.1 hgone with rfl | hbelow
      · exact hrow
      · rcases List.mem_cons.1 hrow with rfl | hrow
        · exact List.mem_cons_of_mem _ hbelow
        · exact List.mem_cons_of_mem _ (Tree.mem_descendants_trans hrow hbelow)
  · obtain ⟨hne, hnot⟩ := not_or.1 fun hrow => hout (hwithin.1 (List.mem_cons.2 hrow))
    have hmem : cell ∈ page.tree.descendants table :=
      (element_of_mem_elementsNamed (List.mem_of_head? hcell)).1
    rcases hlinked.comparable (.inr hbelow) (.inr hmem) with heq | hin | hin
    · exact absurd heq hne
    · exact absurd hin hnot
    · exact hin

/-- A table in the row of another one, with a row of its own. -/
theorem removeImportStatement_inside_inner_row :
    let source := "<table><tr><td>a</td><td><table><tr><td>Import Statement:</td></tr></table>" ++
      "</td></tr></table>"
    ∃ t, parse source = .ok t ∧
      let page : Page := ⟨"", source, t, false⟩
      page.tables = [1, 6] ∧ page.EndsWithin 6 8 ∧
        ∀ n ∈ t.descendants Tree.root,
          n ∉ (removeImportStatement {} page).1.tree.descendants Tree.root →
            n ∈ 6 :: t.descendants 6 := by
  intro source
  have hrun : ((parse source).toOption.map fun t =>
      let page : Page := ⟨"", source, t, false⟩
      decide (page.tables = [1, 6] ∧ ¬ page.States {} 1 ∧ page.States {} 6 ∧
        page.firstCell 6 = some 8 ∧ page.tree.elementsNamed 6 "tr" = [7] ∧
        8 ∈ page.tree.descendants 7)) = some true := by
    decide +kernel
  obtain ⟨t, hp, hrun⟩ := exists_ok_of_map hrun
  simp only [decide_eq_true_eq] at hrun
  obtain ⟨htables, hother, hstates, hcell, hrows, hbelow⟩ := hrun
  have hread : Page.Reached ⟨"", source, t, false⟩ := .read hp
  have hfirst : ∀ other ∈ [1], ¬ Page.States {} ⟨"", source, t, false⟩ other :=
    fun other hmem => List.mem_singleton.1 hmem ▸ hother
  obtain ⟨cell, row, hcell', -, -, -, -, hinside, -⟩ :=
    removeImportStatement_inside_iff hread htables hfirst hstates
  obtain rfl := Option.some.inj (hcell'.symm.trans hcell)
  have hends : Page.EndsWithin ⟨"", source, t, false⟩ 6 8 := .inl ⟨7, by rw [hrows]; simp, hbelow⟩
  exact ⟨t, hp, htables, hends, hinside.2 hends⟩

/-- A table without a row takes the row of the table around it away, and what else is in that. -/
theorem removeImportStatement_outer_row :
    ¬ ∀ (config : ImportStatement) (path source : String) (t : Tree) (left right : List Nat)
        (table : Nat), config.marker ≠ "" → parse source = .ok t →
      let page : Page := ⟨path, source, t, false⟩
      page.tables = left ++ table :: right → (∀ other ∈ left, ¬ page.States config other) →
      page.States config table →
      ∀ n ∈ t.descendants Tree.root,
        n ∉ (removeImportStatement config page).1.tree.descendants Tree.root →
          n ∈ table :: t.descendants table := by
  intro hall
  let source := "<table><tr><td>a</td><td><table><td>Import Statement:</td></table>" ++
    "</td></tr></table>"
  have hrun : ((parse source).toOption.map fun t =>
      let page : Page := ⟨"", source, t, false⟩
      decide (page.tables = [1, 6] ∧ ¬ page.States {} 1 ∧ page.States {} 6 ∧
        3 ∈ t.descendants Tree.root ∧ 3 ∉ 6 :: t.descendants 6 ∧
        3 ∉ (removeImportStatement {} page).1.tree.descendants Tree.root)) = some true := by
    decide +kernel
  obtain ⟨t, hp, hrun⟩ := exists_ok_of_map hrun
  simp only [decide_eq_true_eq] at hrun
  obtain ⟨htables, hother, hstates, hon, hout, hlost⟩ := hrun
  exact hout (hall {} "" source t [1] [] 6 (by decide) hp htables
    (fun other hmem => List.mem_singleton.1 hmem ▸ hother) hstates 3 hon hlost)

end

end Rule

end PageMend
