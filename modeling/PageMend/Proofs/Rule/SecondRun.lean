import PageMend.Proofs.Rule.Commute
import PageMend.Proofs.Rule.Title

/-!
# What a run leaves to a second one

A rule edits one place in a run, and need not be done then. The import rule removes one row, and may
leave a table that states an import beside that row (`Page.Further`). The title rule takes each
marker out of the title once, and may leave one that has come together from what was around it
(`Page.Rejoins`). A rule finds its marker on the page that it has just mended in no other case
(`Rule.finds_apply_iff`).

In a run, moreover, what one rule does may give an earlier one something to find (`Rule.Brings`).
There is nothing else: what a rule finds after the run it has left itself, or a later rule has
brought it (`finds_applyRules`). So a second run over a page that was written and read again is
quiet unless a further table states an import or a rule brings something to an earlier one
(`reapply_quiet`). No rule does that where titles and headings stand apart from tables and rows,
and a further table can then be told from the page that was read.
-/

namespace PageMend

open Markup

/-! ## Beside a node -/

namespace Markup.Tree

/-- Those of some nodes that are beside a node: they are neither that node nor below it. -/
def beside (t : Tree) (id : Nat) (ids : List Nat) : List Nat :=
  ids.filter (· ∉ id :: t.descendants id)

/-- The text of a node, without what a node below it has to do with it. -/
def textBeside (t : Tree) (id n : Nat) : String :=
  String.join ((t.beside id (t.descendants n)).filterMap t.text?)

section
variable {t : Tree} {id q n : Nat}

theorem mem_beside {ids : List Nat} :
    n ∈ t.beside id ids ↔ n ∈ ids ∧ n ∉ id :: t.descendants id := by
  simp [beside]

/-- What is beside a node stays where it is when the node is unlinked. -/
theorem Linked.elementsNamed_detach (h : t.Linked) (hid : t.parent id = some q) (hn : n < t.size)
    (hkept : n ∉ id :: t.descendants id) (tag : String) :
    (t.detach id).1.elementsNamed n tag = t.beside id (t.elementsNamed n tag) := by
  have hnamed : (t.detach id).1.isNamed tag = t.isNamed tag := by
    funext c
    rw [isNamed, isNamed, element?, element?, kind_detach]
  rw [elementsNamed, elementsNamed, beside, h.descendants_detach_of_not_mem hid hn hkept, hnamed,
    List.filter_comm]

theorem Linked.text_detach (h : t.Linked) (hid : t.parent id = some q) (hn : n < t.size)
    (hkept : n ∉ id :: t.descendants id) (htext : t.text? n = none) :
    (t.detach id).1.text n = t.textBeside id n := by
  have hsame : (t.detach id).1.text? = t.text? := by
    funext c
    rw [text?, text?, kind_detach]
  rw [text, hsame, htext, textBeside, beside, h.descendants_detach_of_not_mem hid hn hkept]

theorem Linked.element?_replaceText (h : t.Linked) (id : Nat) (pattern replacement : String)
    (n : Nat) : (t.replaceText id pattern replacement).1.element? n = t.element? n := by
  rw [element?, element?, h.kind_replaceText]
  split
  · cases t.kind n <;> rfl
  · rfl

theorem Linked.trims_replaceText (h : t.Linked) (id : Nat) (pattern replacement : String) :
    (t.replaceText id pattern replacement).1.Trims t where
  element he := by rwa [h.element?_replaceText] at he
  below hn _ := by rwa [descendants_replaceText] at hn

end

end Markup.Tree

/-! ## What a rule leaves -/

namespace Page

/-- Whether a further table states an import, besides the row that the import rule removes: without
that row the first cell of a table holds the marker. -/
def Further (config : ImportStatement) (page : Page) : Prop :=
  ∃ row ∈ Rule.importRow config page, ∃ table ∈ page.tree.beside row page.tables,
    ∃ cell ∈ (page.tree.beside row (page.tree.elementsNamed table "td")).head?,
      (page.tree.textBeside row cell).hasInfix config.marker = true

instance (config : ImportStatement) (page : Page) : Decidable (page.Further config) :=
  inferInstanceAs (Decidable (∃ row ∈ Rule.importRow config page, _))

/-- Whether the title that the title rule makes holds the marker: it has come together from what was
around the markers that were taken out. -/
def Rejoins (config : TitleSuffix) (page : Page) : Prop :=
  ∃ title ∈ page.title, (Rule.newTitle config page title).hasInfix config.marker = true

instance (config : TitleSuffix) (page : Page) : Decidable (page.Rejoins config) :=
  inferInstanceAs (Decidable (∃ title ∈ page.title, _))

end Page

namespace Rule

/-- Whether a rule leaves a marker of its own on a page that it mends. -/
def Leaves (config : Config) (page : Page) : Rule → Prop
  | .titleSuffix => page.Rejoins config.titleSuffix
  | .importStatement => page.Further config.importStatement

section
variable {config : Config} {page : Page}

/-- The import rule finds something just when it finds a row. -/
theorem finds_importStatement_iff (h : page.tree.Shaped) :
    importStatement.Finds config page ↔
      ∃ row, importRow config.importStatement page = some row := by
  constructor
  · rintro ⟨table, htable, cell, hcell, hmarker⟩
    obtain ⟨row, hrow, -⟩ := exists_rowOf h.proper htable hcell
    exact Option.ne_none_iff_exists'.1 (importRow_ne_none htable hcell hmarker hrow)
  · rintro ⟨row, hrow⟩
    obtain ⟨table, htable, cell, hcell, hmarker, -⟩ := exists_of_importRow hrow
    exact ⟨table, htable, cell, hcell, hmarker⟩

/-- With its row removed, a page states an import just where the page that it was states one beside
the row. -/
theorem finds_remove_iff (h : page.tree.Shaped) {row : Nat}
    (hrow : importRow config.importStatement page = some row) :
    importStatement.Finds config (page.remove row).1 ↔ page.Further config.importStatement := by
  obtain ⟨hon, -, -⟩ := importRow_cases h.proper hrow
  obtain ⟨q, -, hparent⟩ := h.linked.parent_of_mem_descendants hon
  have htables : (page.remove row).1.tables = page.tree.beside row page.tables :=
    h.linked.elementsNamed_detach hparent h.pos (Tree.root_not_mem_cons hon) "table"
  have hcell : ∀ table ∈ page.tree.beside row page.tables,
      (page.remove row).1.firstCell table =
        (page.tree.beside row (page.tree.elementsNamed table "td")).head? := fun table htable => by
    obtain ⟨htable, hkept⟩ := Tree.mem_beside.1 htable
    have hlt := (Tree.lt_of_mem_descendants (element_of_mem_elementsNamed htable).1).2
    exact congrArg List.head? (h.linked.elementsNamed_detach hparent hlt hkept "td")
  have htext : ∀ table, ∀ cell ∈
      (page.tree.beside row (page.tree.elementsNamed table "td")).head?,
      (page.remove row).1.tree.text cell = page.tree.textBeside row cell := fun table cell hc => by
    obtain ⟨hc, hkept⟩ := Tree.mem_beside.1 (List.mem_of_head? hc)
    obtain ⟨hbelow, e, he, -⟩ := element_of_mem_elementsNamed hc
    exact h.linked.text_detach hparent (Tree.lt_of_mem_descendants hbelow).2 hkept
      (Tree.text?_of_element? he)
  constructor
  · rintro ⟨table, htable, cell, hfirst, hmarker⟩
    rw [htables] at htable
    rw [hcell table htable] at hfirst
    rw [htext table cell hfirst] at hmarker
    exact ⟨row, hrow, table, htable, cell, hfirst, hmarker⟩
  · rintro ⟨row', hrow', table, htable, cell, hfirst, hmarker⟩
    obtain rfl : row = row' := Option.some.inj (hrow.symm.trans hrow')
    refine ⟨table, htables ▸ htable, cell, (hcell table htable).trans hfirst, ?_⟩
    rwa [htext table cell hfirst]

/-- A rule finds its marker on the page that it has just mended just when it has left one. -/
theorem finds_apply_iff (hc : config.check = .ok ()) (h : page.tree.Shaped) (r : Rule) :
    r.Finds config (r.apply config page).1 ↔ r.Leaves config page := by
  cases r with
  | titleSuffix =>
    cases ht : page.title with
    | none =>
      -- without a title there is nothing to do
      have hfired : (titleSuffix.apply config page).2 = false := by
        refine Bool.eq_false_iff.2 fun hfired => ?_
        obtain ⟨title, htitle, -⟩ := stripTitleSuffix_fires_iff.1 hfired
        cases ht.symm.trans htitle
      rw [apply_eq_self hfired]
      simp [Finds, Leaves, Page.Rejoins, ht]
    | some title =>
      have hafter : (titleSuffix.apply config page).1.title = _ := title_stripTitleSuffix hc h ht
      simp [Finds, Leaves, Page.Rejoins, ht, hafter]
  | importStatement =>
    cases hrow : importRow config.importStatement page with
    | none =>
      rw [apply_importStatement_none hrow, finds_importStatement_iff h, hrow]
      simp [Leaves, Page.Further, hrow]
    | some row =>
      rw [apply_importStatement_some h hrow]
      exact finds_remove_iff h hrow

/-- Whether a rule gives another one something to find, which was not there before. -/
def Brings (config : Config) (page : Page) (r other : Rule) : Prop :=
  ¬ other.Finds config page ∧ other.Finds config (r.apply config page).1

instance (config : Config) (page : Page) (r other : Rule) :
    Decidable (r.Brings config page other) :=
  inferInstanceAs (Decidable (_ ∧ _))

end

end Rule

/-! ## What a run leaves -/

/-- The page that rules which run one behind the other hand to one of them. -/
def handedTo (config : Config) (rs : List Rule) (page : Page) (r : Rule) : Page :=
  (applyRules config (rs.takeWhile (· ≠ r)) page).1

section
variable {config : Config} {page : Page} {r : Rule} {rs : List Rule}

theorem handedTo_self : handedTo config (r :: rs) page r = page := by
  simp [handedTo, applyRules]

theorem handedTo_cons {other : Rule} (hne : r ≠ other) :
    handedTo config (r :: rs) page other = handedTo config rs (r.apply config page).1 other := by
  simp [handedTo, hne, applyRules]

/-- What a rule finds after others have run it has found before, or one of them has brought it. -/
theorem finds_of_finds_applyRules (hnodup : rs.Nodup)
    (hfinds : r.Finds config (applyRules config rs page).1) :
    r.Finds config page ∨ ∃ other ∈ rs, other.Brings config (handedTo config rs page other) r := by
  induction rs generalizing page with
  | nil => exact .inl hfinds
  | cons first rs ih =>
    obtain ⟨hfirst, hnodup⟩ := List.nodup_cons.1 hnodup
    rcases ih hnodup hfinds with hfound | ⟨other, hother, hbrings⟩
    · by_cases hbefore : r.Finds config page
      · exact .inl hbefore
      · refine .inr ⟨first, List.mem_cons_self, ?_⟩
        rw [handedTo_self]
        exact ⟨hbefore, hfound⟩
    · have hne : first ≠ other := fun he => hfirst (he ▸ hother)
      refine .inr ⟨other, List.mem_cons_of_mem first hother, ?_⟩
      rwa [handedTo_cons hne]

/-- What a rule of a run finds after the run it has left there itself, or a rule that ran behind it
has brought it. -/
theorem finds_applyRules (hc : config.check = .ok ()) (h : page.tree.Shaped) (hnodup : rs.Nodup)
    (hr : r ∈ rs) (hfinds : r.Finds config (applyRules config rs page).1) :
    r.Leaves config (handedTo config rs page r) ∨
      ∃ other, [r, other].Sublist rs ∧ other.Brings config (handedTo config rs page other) r := by
  induction rs generalizing page with
  | nil => cases hr
  | cons first rs ih =>
    obtain ⟨hfirst, hnodup⟩ := List.nodup_cons.1 hnodup
    by_cases he : first = r
    · subst he
      rcases finds_of_finds_applyRules hnodup hfinds with hfound | ⟨other, hother, hbrings⟩
      · rw [handedTo_self]
        exact .inl ((Rule.finds_apply_iff hc h first).1 hfound)
      · have hne : first ≠ other := fun he => hfirst (he ▸ hother)
        refine .inr ⟨other, (List.singleton_sublist.2 hother).cons_cons first, ?_⟩
        rwa [handedTo_cons hne]
    · have hr : r ∈ rs := (List.mem_cons.1 hr).resolve_left (Ne.symm he)
      rcases ih (Rule.shaped_apply hc h first) hnodup hr hfinds with
        hleaves | ⟨other, hbehind, hbrings⟩
      · rw [handedTo_cons he]
        exact .inl hleaves
      · have hother : other ∈ rs := hbehind.subset (List.mem_cons_of_mem r List.mem_cons_self)
        have hne : first ≠ other := fun he => hfirst (he ▸ hother)
        refine .inr ⟨other, hbehind.cons first, ?_⟩
        rwa [handedTo_cons hne]

/-! ## Rules that do not meet -/

/-- A rule adds no element to a page, and brings none below another. -/
theorem Rule.trims_apply (h : page.tree.Linked) (r : Rule) :
    (r.apply config page).1.tree.Trims page.tree := by
  cases r with
  | titleSuffix =>
    show (stripTitleSuffix config.titleSuffix page).1.tree.Trims page.tree
    unfold stripTitleSuffix
    split
    · exact .refl page.tree
    · split
      · have hretitled := page.trims_setTitle
        dsimp only
        split
        · exact hretitled _
        · exact (hretitled _).trans ((Page.linked_setTitle h _).trims_replaceText ..)
      · exact .refl page.tree
  | importStatement =>
    show (removeImportStatement config.importStatement page).1.tree.Trims page.tree
    unfold removeImportStatement
    split
    · exact .refl page.tree
    · exact Tree.trims_detach page.tree _

/-- Titles and headings that are apart from tables and rows stay so. -/
theorem Page.Separate.apply (hs : page.Separate config.titleSuffix) (h : page.tree.Linked)
    (r : Rule) : (r.apply config page).1.Separate config.titleSuffix :=
  hs.of_trims (Rule.trims_apply h r)

/-- Where titles and headings are apart from tables and rows, neither rule changes what the other
one finds. -/
theorem Page.Separate.finds_apply_iff (hs : page.Separate config.titleSuffix)
    (hc : config.check = .ok ()) (h : page.tree.Shaped) {other : Rule} (hne : r ≠ other) :
    other.Finds config (r.apply config page).1 ↔ other.Finds config page := by
  cases r with
  | titleSuffix =>
    cases other with
    | titleSuffix => exact absurd rfl hne
    | importStatement =>
      rw [Rule.finds_importStatement_iff h,
        Rule.finds_importStatement_iff (Rule.shaped_apply hc h .titleSuffix),
        importRow_titleSuffix hc h hs]
  | importStatement =>
    cases other with
    | importStatement => exact absurd rfl hne
    | titleSuffix =>
      cases hrow : Rule.importRow config.importStatement page with
      | none => rw [Rule.apply_importStatement_none hrow]
      | some row =>
        rw [Rule.apply_importStatement_some h hrow]
        show (∃ title, (page.remove row).1.title = some title ∧ _) ↔ _
        rw [(hs.removable h hrow).title_remove h.linked]
        rfl

/-- On such a page, a rule finds after a run what it has left, whatever ran behind it. -/
theorem Page.Separate.finds_applyRules_iff (hs : page.Separate config.titleSuffix)
    (hc : config.check = .ok ()) (h : page.tree.Shaped) (hnodup : rs.Nodup) :
    (r ∈ rs → (r.Finds config (applyRules config rs page).1 ↔
        r.Leaves config (handedTo config rs page r))) ∧
      (r ∉ rs → (r.Finds config (applyRules config rs page).1 ↔ r.Finds config page)) := by
  induction rs generalizing page with
  | nil => exact ⟨nofun, fun _ => Iff.rfl⟩
  | cons first rs ih =>
    obtain ⟨hfirst, hnodup⟩ := List.nodup_cons.1 hnodup
    have hshaped := Rule.shaped_apply hc h first
    obtain ⟨hmem, hnot⟩ := ih (hs.apply h.linked first) hshaped hnodup
    by_cases he : first = r
    · subst he
      refine ⟨fun _ => ?_, fun hr => absurd List.mem_cons_self hr⟩
      rw [handedTo_self, ← Rule.finds_apply_iff hc h]
      exact hnot hfirst
    · constructor
      · intro hr
        rw [handedTo_cons he]
        exact hmem ((List.mem_cons.1 hr).resolve_left (Ne.symm he))
      · intro hr
        exact (hnot fun hmem => hr (List.mem_cons_of_mem first hmem)).trans
          (hs.finds_apply_iff hc h he)

/-- On such a page, it does not matter which of two rules is applied first. -/
theorem Page.Separate.apply_comm (hs : page.Separate config.titleSuffix)
    (hc : config.check = .ok ()) (h : page.tree.Shaped) (r other : Rule) :
    (other.apply config (r.apply config page).1).1 =
      (r.apply config (other.apply config page).1).1 := by
  have hswap := (applyRules_swap hc h hs).1
  cases r with
  | titleSuffix =>
    cases other with
    | titleSuffix => rfl
    | importStatement => exact hswap.symm
  | importStatement =>
    cases other with
    | titleSuffix => exact hswap
    | importStatement => rfl

/-- Neither rule has a part in what the other one leaves. -/
theorem Page.Separate.leaves_apply_iff (hs : page.Separate config.titleSuffix)
    (hc : config.check = .ok ()) (h : page.tree.Shaped) {other : Rule} (hne : r ≠ other) :
    other.Leaves config (r.apply config page).1 ↔ other.Leaves config page := by
  calc other.Leaves config (r.apply config page).1
    _ ↔ other.Finds config (other.apply config (r.apply config page).1).1 :=
      (Rule.finds_apply_iff hc (Rule.shaped_apply hc h r) other).symm
    _ ↔ other.Finds config (r.apply config (other.apply config page).1).1 := by
      rw [hs.apply_comm hc h]
    _ ↔ other.Finds config (other.apply config page).1 :=
      (hs.apply h.linked other).finds_apply_iff hc (Rule.shaped_apply hc h other) hne
    _ ↔ other.Leaves config page := Rule.finds_apply_iff hc h other

/-- So each rule of a run leaves what it would leave on the page that the run starts with. -/
theorem Page.Separate.leaves_handedTo_iff (hs : page.Separate config.titleSuffix)
    (hc : config.check = .ok ()) (h : page.tree.Shaped) (hr : r ∈ rs) :
    r.Leaves config (handedTo config rs page r) ↔ r.Leaves config page := by
  induction rs generalizing page with
  | nil => cases hr
  | cons first rs ih =>
    by_cases he : first = r
    · subst he
      rw [handedTo_self]
    · have hr : r ∈ rs := (List.mem_cons.1 hr).resolve_left (Ne.symm he)
      rw [handedTo_cons he, ih (hs.apply h.linked first) (Rule.shaped_apply hc h first) hr,
        hs.leaves_apply_iff hc h he]

/-! ## A second run -/

theorem finds_mend : r.Finds config (mend config page).1 ↔
    r.Finds config (applyRules config (activeRules config.pipeline) page).1 := by
  simp only [mend]
  split <;> rfl

/-- A page that was read is mended, written and read again. If all texts can be read where they are,
and the title rule leaves no marker of its own, then a second run does nothing, unless the import
rule leaves a further table or a rule brings something to one that ran before it. Where titles and
headings are apart from tables and rows, a second run does nothing just when the page that was read
has no further table. -/
theorem reapply_quiet (hc : config.check = .ok ()) {path source : String} {t t' : Tree}
    (hp : parse source = .ok t)
    (hr : parse (mend config ⟨path, source, t, false⟩).1.serialize = .ok t')
    (hlegible : (mend config ⟨path, source, t, false⟩).1.tree.LegibleBelow Tree.root)
    (htitle : .titleSuffix ∈ activeRules config.pipeline →
      ¬ (handedTo config (activeRules config.pipeline) ⟨path, source, t, false⟩
        .titleSuffix).Rejoins config.titleSuffix) :
    let rules := activeRules config.pipeline
    let page : Page := ⟨path, source, t, false⟩
    let reloaded : Page := ⟨path, (mend config page).1.serialize, t', false⟩
    let again := mend config reloaded
    let quiet := again.2 = [] ∧ again.1.modified = false ∧
      again.1.serialize = reloaded.serialize
    ((.importStatement ∈ rules →
        ¬ (handedTo config rules page .importStatement).Further config.importStatement) →
      (∀ first second : Rule, [first, second].Sublist rules →
        ¬ second.Brings config (handedTo config rules page second) first) → quiet) ∧
      (page.Separate config.titleSuffix →
        (quiet ↔ (.importStatement ∈ rules → ¬ page.Further config.importStatement))) := by
  intro rules page reloaded again quiet
  have hshaped : page.tree.Shaped := (sound_of_parse hp).shaped
  have hnodup : rules.Nodup := nodup_activeRules config.pipeline
  -- the second run sees what the first has left in memory
  obtain ⟨hnone, hsame⟩ := reapply_iff hc hp hr
  have hquiet : quiet ↔ ∀ r ∈ rules, ¬ r.Finds config (applyRules config rules page).1 :=
    hnone.trans <| forall₂_congr fun r _ => not_congr (((hsame hlegible).2 r).trans finds_mend)
  constructor
  · intro hfurther hbrings
    refine hquiet.2 fun r hr hfinds => ?_
    rcases finds_applyRules hc hshaped hnodup hr hfinds with
      hleaves | ⟨other, hbehind, hbrought⟩
    · cases r with
      | titleSuffix => exact htitle hr hleaves
      | importStatement => exact hfurther hr hleaves
    · exact hbrings r other hbehind hbrought
  · intro hs
    have hfinds : ∀ r ∈ rules, (r.Finds config (applyRules config rules page).1 ↔
        r.Leaves config (handedTo config rules page r)) := fun r =>
      (hs.finds_applyRules_iff hc hshaped hnodup).1
    rw [hquiet]
    constructor
    · intro hnothing hr hfurther
      refine hnothing .importStatement hr ((hfinds _ hr).2 ?_)
      exact (hs.leaves_handedTo_iff hc hshaped hr).2 hfurther
    · intro hfurther r hr hfound
      have hleaves := (hfinds r hr).1 hfound
      cases r with
      | titleSuffix => exact htitle hr hleaves
      | importStatement =>
        exact hfurther hr ((hs.leaves_handedTo_iff hc hshaped hr).1 hleaves)

end

/-- The title and the heading are mended, the heading in a table of its own, and a row of the table
behind it is removed. A second run does nothing. -/
theorem reapply_quiet_layout_table :
    let config : Config :=
      { titleSuffix := { marker := "M" }, importStatement := { marker := "I" } }
    let source := "<title>aM</title><table><td><h1 class=\"title\">aM</h1></td></table>" ++
      "<table><tr><td>I</td></tr><tr><td>b</td></tr></table>"
    ∃ t t', parse source = .ok t ∧
      parse (mend config ⟨"", source, t, false⟩).1.serialize = .ok t' ∧
      (mend config ⟨"", source, t, false⟩).2 = [.titleSuffix, .importStatement] ∧
      let reloaded : Page := ⟨"", (mend config ⟨"", source, t, false⟩).1.serialize, t', false⟩
      (mend config reloaded).2 = [] ∧ (mend config reloaded).1.modified = false ∧
        (mend config reloaded).1.serialize = reloaded.serialize := by
  intro config source
  have hcheck : Config.check
      { titleSuffix := { marker := "M" }, importStatement := { marker := "I" } } = .ok () := by rfl
  have hrun : ((parse source).toOption.bind fun t =>
      let page : Page := ⟨"", source, t, false⟩
      (parse (mend config page).1.serialize).toOption.map fun _ =>
        ((mend config page).2, decide (page.Unscripted config.titleSuffix ∧
          ¬ (handedTo config (activeRules config.pipeline) page .titleSuffix).Rejoins
            config.titleSuffix ∧
          ¬ (handedTo config (activeRules config.pipeline) page .importStatement).Further
            config.importStatement ∧
          ¬ Rule.importStatement.Brings config
            (handedTo config (activeRules config.pipeline) page .importStatement)
            .titleSuffix))) =
      some ([.titleSuffix, .importStatement], true) := by
    decide +kernel
  obtain ⟨t, hp, hrun⟩ := exists_ok_of_bind hrun
  obtain ⟨t', hr, hrun⟩ := exists_ok_of_map hrun
  simp only [Prod.mk.injEq, decide_eq_true_eq] at hrun
  obtain ⟨hfired, hunscripted, htitle, hfurther, hbrings⟩ := hrun
  obtain ⟨hquiet, -⟩ := reapply_quiet hcheck hp hr (legible_mend hcheck hp fun _ => hunscripted)
    fun _ => htitle
  refine ⟨t, t', hp, hr, hfired, hquiet (fun _ => hfurther) fun first second hbehind => ?_⟩
  -- only the import rule runs behind another
  cases first with
  | titleSuffix =>
    cases second with
    | titleSuffix => exact absurd hbehind (by decide)
    | importStatement => exact hbrings
  | importStatement => cases second <;> exact absurd hbehind (by decide)

/-- On a page with two tables that state an import, a second run fires. -/
theorem reapply_two_tables :
    ¬ ∀ (config : Config) (path source : String) (t t' : Tree), config.check = .ok () →
      parse source = .ok t → parse (mend config ⟨path, source, t, false⟩).1.serialize = .ok t' →
      let once := (mend config ⟨path, source, t, false⟩).1
      let again := mend config ⟨path, once.serialize, t', false⟩
      again.2 = [] ∧ again.1.modified = false ∧ again.1.serialize = once.serialize := by
  intro hall
  let config : Config := { importStatement := { marker := "I" } }
  have hcheck : Config.check { importStatement := { marker := "I" } } = .ok () := by rfl
  let source := "<table><td>I</td></table><table><td>I</td></table>"
  have hrun : ((parse source).toOption.bind fun t =>
      (parse (mend config ⟨"", source, t, false⟩).1.serialize).toOption.map fun t' =>
        (mend config ⟨"", (mend config ⟨"", source, t, false⟩).1.serialize, t', false⟩).2) =
      some [.importStatement] := by
    decide +kernel
  obtain ⟨t, hp, hrun⟩ := exists_ok_of_bind hrun
  obtain ⟨t', hr, hfired⟩ := exists_ok_of_map hrun
  have hnone := (hall config "" source t t' hcheck hp hr).1
  cases hfired.symm.trans hnone

/-- The row that is removed may hold the title. A later title then is the title, and a second run
finds the marker there. -/
theorem reapply_title_in_row :
    let config : Config :=
      { titleSuffix := { marker := "M" }, importStatement := { marker := "I" } }
    let source := "<table><td>I<title>a</title></td></table><title>bM</title>"
    ∃ t t', parse source = .ok t ∧
      parse (mend config ⟨"", source, t, false⟩).1.serialize = .ok t' ∧
      let page : Page := ⟨"", source, t, false⟩
      ¬ page.Rejoins config.titleSuffix ∧ ¬ page.Further config.importStatement ∧
        Rule.importStatement.Brings config page .titleSuffix ∧
        (mend config ⟨"", (mend config page).1.serialize, t', false⟩).2 = [.titleSuffix] := by
  intro config source
  have hrun : ((parse source).toOption.bind fun t =>
      let page : Page := ⟨"", source, t, false⟩
      (parse (mend config page).1.serialize).toOption.map fun t' =>
        (decide (¬ page.Rejoins config.titleSuffix ∧ ¬ page.Further config.importStatement ∧
            Rule.importStatement.Brings config page .titleSuffix),
          (mend config ⟨"", (mend config page).1.serialize, t', false⟩).2)) =
      some (true, [.titleSuffix]) := by
    decide +kernel
  obtain ⟨t, hp, hrun⟩ := exists_ok_of_bind hrun
  obtain ⟨t', hr, hrun⟩ := exists_ok_of_map hrun
  simp only [Prod.mk.injEq, decide_eq_true_eq] at hrun
  obtain ⟨⟨hrejoins, hfurther, hbrings⟩, hfired⟩ := hrun
  exact ⟨t, t', hp, hr, hrejoins, hfurther, hbrings, hfired⟩

/-- A marker in a script may hide a table. Without the marker the script ends before the table, so a
second run finds an import that no rule finds in memory. -/
theorem reapply_hidden_table :
    let config : Config :=
      { titleSuffix := { marker := "M" }, importStatement := { marker := "I" } }
    let source := "<title>M</title><h1 class=\"title\"><script>" ++
      "</scriMpt><table><td>I</td></table><scriMpt></script></h1>"
    ∃ t t', parse source = .ok t ∧
      parse (mend config ⟨"", source, t, false⟩).1.serialize = .ok t' ∧
      (∀ r ∈ activeRules config.pipeline,
        ¬ r.Finds config (mend config ⟨"", source, t, false⟩).1) ∧
      (mend config ⟨"", (mend config ⟨"", source, t, false⟩).1.serialize, t', false⟩).2 =
        [.importStatement] := by
  intro config source
  have hrun : ((parse source).toOption.bind fun t =>
      (parse (mend config ⟨"", source, t, false⟩).1.serialize).toOption.map fun t' =>
        (decide (∀ r ∈ activeRules config.pipeline,
            ¬ r.Finds config (mend config ⟨"", source, t, false⟩).1),
          (mend config ⟨"", (mend config ⟨"", source, t, false⟩).1.serialize, t', false⟩).2)) =
      some (true, [.importStatement]) := by
    decide +kernel
  obtain ⟨t, hp, hrun⟩ := exists_ok_of_bind hrun
  obtain ⟨t', hr, hrun⟩ := exists_ok_of_map hrun
  simp only [Prod.mk.injEq, decide_eq_true_eq] at hrun
  exact ⟨t, t', hp, hr, hrun.1, hrun.2⟩

end PageMend
