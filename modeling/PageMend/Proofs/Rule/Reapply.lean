import PageMend.Proofs.Rule.Mendable

/-!
# Running the rules again

When the rules have been applied to a page and the page is written and read again, a second run
does nothing just when no rule finds its marker on the page that was read (`reapply_iff`). What is
written and read again shows the rules the same elements with the same text as the page in memory,
if the texts in memory can be read where they are. It is then the page in memory in normal form
(`parse_serialize_mend`).

The texts can be read where they are unless a marker was taken out of a script or style sheet, or
the title held one: what is left may then read as tags. It does not if no title or heading that the
rules mend holds a script or style sheet (`Page.Unscripted`, `legible_mend`).
-/

namespace PageMend

open Markup

namespace Page

/-- No title, and no heading that the title rule mends, is or contains a script or style sheet. -/
def Unscripted (config : TitleSuffix) (page : Page) : Prop :=
  ∀ id ∈ page.tree.elementsNamed Tree.root "title" ++
      page.headings config.headingTag config.headingClass,
    ∀ n, n = id ∨ n ∈ page.tree.descendants id → ∀ e, page.tree.element? n = some e →
      isRawTextName e.name = false

instance (config : TitleSuffix) (page : Page) : Decidable (page.Unscripted config) :=
  decidable_of_iff (∀ id ∈ page.tree.elementsNamed Tree.root "title" ++
      page.headings config.headingTag config.headingClass,
    ∀ n ∈ id :: page.tree.descendants id,
      (page.tree.element? n).all (fun e => !isRawTextName e.name) = true) <| by
    constructor
    · intro h id hid n hn e he
      have hall := h id hid n (List.mem_cons.2 hn)
      rw [he] at hall
      exact Bool.not_eq_eq_eq_not.1 hall
    · intro h id hid n hn
      cases he : page.tree.element? n with
      | none => rfl
      | some e => exact Bool.not_eq_eq_eq_not.2 (h id hid n (List.mem_cons.1 hn) e he)

/-- Where there is no script or style sheet, there is no raw text. -/
theorem Unscripted.isRaw {config : TitleSuffix} {page : Page} (h : page.Unscripted config)
    {id n : Nat} (hid : id ∈ page.tree.elementsNamed Tree.root "title" ++
      page.headings config.headingTag config.headingClass)
    (hn : n = id ∨ n ∈ page.tree.descendants id) : (page.tree.kind n).isRaw = false := by
  cases hk : page.tree.kind n with
  | element e =>
    have hname := h id hid n hn e (by rw [Tree.element?, hk]; rfl)
    rw [Kind.isRaw, Element.isRaw, hname]
    rfl
  | _ => rfl

/-- Without a script or style sheet, no text that the title rule touches has a bracket. -/
theorem Unscripted.mendable {config : TitleSuffix} {page : Page} (h : page.Unscripted config)
    (hs : page.tree.Sound) : page.Mendable config := by
  constructor
  · intro id hid n hn body hbody
    obtain ⟨p, hp, hnp⟩ := Tree.mem_descendants_iff.1 hn
    have hplain := h.isRaw (List.mem_append_left _ hid) hp
    exact (Kind.holds_iff_of_plain hplain body).1 (hs.texts hnp (Tree.mem_text?_iff.1 hbody))
  · intro id hid p hp c hc body hbody
    have hplain := h.isRaw (List.mem_append_right _ hid) (List.mem_cons.1 hp)
    have hholds := hs.texts hc (Tree.mem_text?_iff.1 hbody)
    rw [Kind.holds_iff_of_plain hplain] at hholds ⊢
    exact fun hm => hholds (String.mem_replaceEach_empty hm)

end Page

section
variable {config : Config}

/-- No rule fires in a run just when each, applied to the page, does not. -/
theorem applyRules_eq_nil_iff {rs : List Rule} {page : Page} :
    (applyRules config rs page).2 = [] ↔ ∀ r ∈ rs, (r.apply config page).2 = false := by
  induction rs with
  | nil => simp [applyRules]
  | cons r rs ih =>
    rw [List.forall_mem_cons, ← ih]
    simp only [applyRules]
    cases hfired : (r.apply config page).2 with
    | true => simp
    | false =>
      rw [Rule.apply_eq_self hfired]
      simp

theorem applyRules_eq_self {rs : List Rule} {page : Page}
    (h : (applyRules config rs page).2 = []) : (applyRules config rs page).1 = page := by
  induction rs with
  | nil => rfl
  | cons r rs ih =>
    obtain ⟨hr, hrs⟩ := List.forall_mem_cons.1 (applyRules_eq_nil_iff.1 h)
    simp only [applyRules]
    rw [Rule.apply_eq_self hr]
    exact ih (applyRules_eq_nil_iff.2 hrs)

/-- A run in which no rule fires leaves the page as it is. -/
theorem mend_eq_self {page : Page} (h : (mend config page).2 = []) :
    (mend config page).1 = page := by
  rw [fired_mend] at h
  simp only [mend, h, List.isEmpty_nil, if_true]
  exact applyRules_eq_self h

/-! ## A second run -/

/-- Once the rules have run on a page without a script or style sheet in a title or heading, all
texts can be read where they are. -/
theorem legible_mend (hc : config.check = .ok ()) {path source : String} {t : Tree}
    (hp : parse source = .ok t)
    (hu : Rule.titleSuffix ∈ (mend config ⟨path, source, t, false⟩).2 →
      Page.Unscripted config.titleSuffix ⟨path, source, t, false⟩) :
    (mend config ⟨path, source, t, false⟩).1.tree.LegibleBelow Tree.root := by
  have hsound : (mend config ⟨path, source, t, false⟩).1.tree.Sound :=
    sound_mend hc (sound_of_parse hp) fun hfired => (hu hfired).mendable (sound_of_parse hp)
  exact hsound.legibleBelow Tree.root

/-- Once the rules have run on a page without a script or style sheet in a title or heading, what is
written is read as the page in memory, but for empty texts, which are dropped, and texts side by
side, which are joined. The nodes that are read are all on the page, numbered in document order. -/
theorem parse_serialize_mend (hc : config.check = .ok ()) {path source : String} {t : Tree}
    (hp : parse source = .ok t)
    (hu : Page.Unscripted config.titleSuffix ⟨path, source, t, false⟩)
    (hmark : (mend config ⟨path, source, t, false⟩).1.serialize.toList.head? ≠ some '\uFEFF') :
    ∃ t', parse (mend config ⟨path, source, t, false⟩).1.serialize = .ok t' ∧
      t'.kind Tree.root = .root ∧
      t'.forest Tree.root =
        ((mend config ⟨path, source, t, false⟩).1.tree.forest Tree.root).normalize ∧
      t'.descendants Tree.root = List.range' 1 (t'.size - 1) := by
  have hlegible : (mend config ⟨path, source, t, false⟩).1.tree.LegibleBelow Tree.root :=
    legible_mend hc hp fun _ => hu
  have hshaped : (mend config ⟨path, source, t, false⟩).1.tree.Shaped :=
    shaped_mend hc (sound_of_parse hp).shaped
  obtain ⟨t', hread, -, -, hforest⟩ := parse_serialize_of_legible hshaped hlegible
  exact ⟨t', hread, (sound_of_parse hread).root, hforest hmark, descendants_of_parse hread⟩

/-- The empty text of a title is not read again, and the texts around a row that was removed are
read as one. -/
theorem parse_serialize_mend_joined :
    let config : Config :=
      { titleSuffix := { marker := "M" }, importStatement := { marker := "I" } }
    let source := "<title>M</title><table>a<tr><td>I</td></tr>b</table>"
    ∃ t t', parse source = .ok t ∧
      parse (mend config ⟨"", source, t, false⟩).1.serialize = .ok t' ∧
      (mend config ⟨"", source, t, false⟩).1.tree.descendants Tree.root = [1, 9, 3, 4, 8] ∧
      t'.forest Tree.root =
        ((mend config ⟨"", source, t, false⟩).1.tree.forest Tree.root).normalize ∧
      t'.descendants Tree.root = [1, 2, 3] := by
  intro config source
  have hcheck : Config.check
      { titleSuffix := { marker := "M" }, importStatement := { marker := "I" } } = .ok () := by rfl
  have hrun : ((parse source).toOption.bind fun t =>
      (parse (mend config ⟨"", source, t, false⟩).1.serialize).toOption.map fun t' =>
        (decide (Page.Unscripted config.titleSuffix ⟨"", source, t, false⟩),
          (mend config ⟨"", source, t, false⟩).1.serialize.toList.head?,
          (mend config ⟨"", source, t, false⟩).1.tree.descendants Tree.root, t'.size)) =
      some (true, some '<', [1, 9, 3, 4, 8], 4) := by
    decide +kernel
  obtain ⟨t, hp, hrun⟩ := exists_ok_of_bind hrun
  obtain ⟨t', hr, hrun⟩ := exists_ok_of_map hrun
  simp only [Prod.mk.injEq, decide_eq_true_eq] at hrun
  obtain ⟨hunscripted, hhead, horder, hsize⟩ := hrun
  have hmark : (mend config ⟨"", source, t, false⟩).1.serialize.toList.head? ≠ some '\uFEFF' := by
    rw [hhead]
    decide
  obtain ⟨t'', hread, -, hforest, hnumbers⟩ := parse_serialize_mend hcheck hp hunscripted hmark
  obtain rfl : t'' = t' := by
    rw [hr] at hread
    cases hread
    rfl
  rw [hsize] at hnumbers
  exact ⟨t, t'', hp, hr, horder, hforest, hnumbers⟩

/-- What a rule finds on a page in memory, it finds when the page is written and read again. -/
theorem finds_reload_iff {page : Page} {path source : String} {t : Tree}
    (h : page.tree.Shaped) (hl : page.tree.LegibleBelow Tree.root)
    (hr : parse page.serialize = .ok t) :
    t.serialize.toList = withoutMark page.serialize.toList ∧
      ∀ r : Rule, r.Finds config ⟨path, source, t, false⟩ ↔ r.Finds config page := by
  obtain ⟨t', hread, helements, hwritten, -⟩ := parse_serialize_of_legible h hl
  obtain rfl : t' = t := by
    rw [show page.tree.serialize = page.serialize from rfl, hr] at hread
    cases hread
    rfl
  refine ⟨hwritten, fun r => ?_⟩
  rw [Rule.finds_iff_findsIn, Rule.finds_iff_findsIn,
    ← Rule.findsIn_normalize (h.forest_root hl).bare, ← helements]

/-- Once the rules have run, and the page has been written and read again, a second run does nothing
just when no active rule finds its marker on the page that was read. If all texts can be read where
they are, the rules find on that page what they find on the page in memory. -/
theorem reapply_iff (hc : config.check = .ok ()) {path source : String} {t t' : Tree}
    (hp : parse source = .ok t)
    (hr : parse (mend config ⟨path, source, t, false⟩).1.serialize = .ok t') :
    let once := (mend config ⟨path, source, t, false⟩).1
    let reloaded : Page := ⟨path, once.serialize, t', false⟩
    let again := mend config reloaded
    (again.2 = [] ∧ again.1.modified = false ∧ again.1.serialize = reloaded.serialize ↔
        ∀ r ∈ activeRules config.pipeline, ¬ r.Finds config reloaded) ∧
      (once.tree.LegibleBelow Tree.root →
        reloaded.serialize.toList = withoutMark once.serialize.toList ∧
          ∀ r : Rule, r.Finds config reloaded ↔ r.Finds config once) := by
  intro once reloaded again
  have hfires : ∀ r : Rule, (r.apply config reloaded).2 = true ↔ r.Finds config reloaded :=
    Rule.apply_fires_iff (sound_of_parse hr).shaped
  refine ⟨⟨?_, ?_⟩, ?_⟩
  · rintro ⟨hnil, -, -⟩ r hactive hfinds
    have hquiet := applyRules_eq_nil_iff.1 hnil r hactive
    exact absurd (hquiet.symm.trans ((hfires r).2 hfinds)) Bool.false_ne_true
  · intro hnone
    have hnil : again.2 = [] := applyRules_eq_nil_iff.2 fun r hactive =>
      Bool.eq_false_iff.2 fun h => hnone r hactive ((hfires r).1 h)
    have hself : again.1 = reloaded := mend_eq_self hnil
    exact ⟨hnil, by rw [hself], by rw [hself]⟩
  · intro hl
    have hshaped : once.tree.Shaped := by
      rw [tree_mend]
      exact shaped_applyRules hc (sound_of_parse hp).shaped
    exact finds_reload_iff hshaped hl hr

end

end PageMend
