import Mathlib.Tactic.Tauto
import PageMend.Proofs.Markup.Order
import PageMend.Proofs.Rule.Reapply

/-!
# What a run leaves alone

A run of the rules edits a page at three sites at most: it replaces what the title holds, strips the
texts of a heading, and unlinks a row. `sites` finds them, each on the page as the rule finds it.

All other nodes keep their kind and their parent, and what is left on the page stands in the order
in which it stood; the text of the title is the only new node (`Framed`). Each edit keeps this with
regard to the page before the run, whatever was edited before (`Framed.retitle`, `Framed.strip`,
`Framed.remove`), so it holds in whichever order the rules run and however their sites overlap
(`framed_applyRules`).
-/

namespace PageMend

open Markup

/-! ## Sites -/

/-- Where a run edits a page. -/
structure Sites where
  /-- The title whose content becomes one text. -/
  title : Option Nat := none
  /-- The heading from whose texts the marker is taken. -/
  heading : Option Nat := none
  /-- The row that is unlinked. -/
  row : Option Nat := none
  deriving DecidableEq, Repr

namespace Sites

/-- The sites of two runs, one behind the other. -/
def or (a b : Sites) : Sites where
  title := a.title.or b.title
  heading := a.heading.or b.heading
  row := a.row.or b.row

theorem or_assoc (a b c : Sites) : (a.or b).or c = a.or (b.or c) := by
  simp [or, Option.or_assoc]

theorem or_none (a : Sites) : a.or {} = a := by simp [or]

/-- Whether a node is taken off the page: it is below the title, or it is the row or below it. -/
def Lost (s : Sites) (t : Tree) (n : Nat) : Prop :=
  (∃ id ∈ s.title, n ∈ t.descendants id) ∨ ∃ id ∈ s.row, n ∈ id :: t.descendants id

/-- Whether the marker is taken from a node if it is text: it is below the heading. -/
def Stripped (s : Sites) (t : Tree) (n : Nat) : Prop :=
  ∃ id ∈ s.heading, n ∈ id :: t.descendants id

instance (s : Sites) (t : Tree) : DecidablePred (s.Lost t) := fun _ =>
  inferInstanceAs (Decidable (_ ∨ _))

instance (s : Sites) (t : Tree) : DecidablePred (s.Stripped t) := fun _ =>
  inferInstanceAs (Decidable (∃ id ∈ s.heading, _))

/-- What is put below a node: the title holds one new text. -/
def added (s : Sites) (t : Tree) (p : Nat) : List Nat := if s.title = some p then [t.size] else []

theorem mem_added {s : Sites} {t : Tree} {p n : Nat} :
    n ∈ s.added t p ↔ s.title = some p ∧ n = t.size := by
  unfold added
  split <;> simp [*]

theorem lost_row {s : Sites} (hs : s.row = none) (row : Nat) (t : Tree) (n : Nat) :
    Lost { s with row := some row } t n ↔ s.Lost t n ∨ n ∈ row :: t.descendants row := by
  simp [Lost, hs]

theorem lost_title {s : Sites} (hs : s.title = none) (id : Nat) (t : Tree) (n : Nat) :
    Lost { s with title := some id } t n ↔ s.Lost t n ∨ n ∈ t.descendants id := by
  simp [Lost, hs, or_comm]

theorem Lost.below {s : Sites} {t : Tree} {p c : Nat} (h : s.Lost t p) (hc : c ∈ t.children p) :
    s.Lost t c := by
  rcases h with ⟨id, hid, hp⟩ | ⟨id, hid, hp⟩
  · exact .inl ⟨id, hid, Tree.mem_descendants_iff.2 ⟨p, .inr hp, hc⟩⟩
  · have hbelow := Tree.mem_descendants_iff.2 ⟨p, List.mem_cons.1 hp, hc⟩
    exact .inr ⟨id, hid, List.mem_cons_of_mem _ hbelow⟩

/-- The title itself stays: what is lost is below it, if no row is unlinked. -/
theorem not_lost_title {s : Sites} {id : Nat} (htitle : s.title = some id) (hrow : s.row = none)
    (t : Tree) : ¬ s.Lost t id := by
  rintro (⟨n, hn, hlost⟩ | ⟨n, hn, -⟩)
  · obtain rfl : id = n := Option.some.inj (htitle.symm.trans hn)
    exact Nat.lt_irrefl _ (Tree.lt_of_mem_descendants hlost).1
  · cases hrow.symm.trans hn

end Sites

/-- Where a rule edits a page, if it fires. -/
def Rule.sites (config : Config) (page : Page) : Rule → Sites
  | .titleSuffix =>
    if (stripTitleSuffix config.titleSuffix page).2 then
      { title := page.titleNode
        heading := ((retitled config.titleSuffix page).headings config.titleSuffix.headingTag
          config.titleSuffix.headingClass).head? }
    else {}
  | .importStatement => { row := importRow config.importStatement page }

/-- Where rules that run one behind the other edit a page. -/
def sites (config : Config) : List Rule → Page → Sites
  | [], _ => {}
  | r :: rs, page => (r.sites config page).or (sites config rs (r.apply config page).1)

/-! ## Frames -/

/-- A page is as it was, but for what was edited at its sites. Nodes are told by their numbers; the
new one has the first number that was free. -/
structure Framed (marker : String) (s : Sites) (t u : Tree) : Prop where
  /-- The sites are on the page. -/
  onPage : ∀ id, id ∈ s.title ∨ id ∈ s.heading ∨ id ∈ s.row → id ∈ t.descendants Tree.root
  /-- What is not lost holds what it held, but for what is lost and the new text. -/
  cut : t.Cut u (s.Lost t) (s.added t)
  parent : ∀ n < t.size, ¬ s.Lost t n → u.parent n = t.parent n
  /-- Texts below the heading lose the marker. All else is of the same kind. -/
  kind : ∀ n < t.size, ¬ s.Lost t n →
    u.kind n = if s.Stripped t n then (t.kind n).replaceEach marker "" else t.kind n
  size : u.size = t.size + if s.title.isSome then 1 else 0
  /-- The new node is the text of the title. -/
  text : ∀ id ∈ s.title, u.parent t.size = some id ∧ ∃ body, u.kind t.size = .text body

theorem framed_refl (marker : String) (t : Tree) : Framed marker {} t t where
  onPage := by simp
  cut := (Tree.cut_refl t).congr (fun h => Sites.Lost.below h) (by simp [Sites.Lost])
    (by simp [Sites.added])
  parent _ _ _ := rfl
  kind := by simp [Sites.Stripped]
  size := rfl
  text := by simp

section
variable {marker : String} {s : Sites} {t u : Tree}

theorem Framed.size_le (h : Framed marker s t u) : t.size ≤ u.size := by
  rw [h.size]
  exact Nat.le_add_right _ _

theorem Framed.not_lost_root (h : Framed marker s t u) : ¬ s.Lost t Tree.root := by
  rintro (⟨id, -, hm⟩ | ⟨id, hid, hm⟩)
  · exact t.root_not_mem_descendants id hm
  · exact Tree.root_not_mem_cons (h.onPage id (.inr (.inr hid))) hm

/-- What is left on the page stands in the old order, and the new text behind the title. -/
theorem Framed.descendants (h : Framed marker s t u) (hpos : 0 < t.size) :
    u.descendants Tree.root =
      ((t.descendants Tree.root).filter (¬ s.Lost t ·)).flatMap fun n => n :: s.added t n := by
  have hnone : s.added t Tree.root = [] := by
    refine if_neg fun htitle => ?_
    exact Nat.lt_irrefl _ (Tree.lt_of_mem_descendants (h.onPage _ (.inl htitle))).1
  have hbelow := h.cut.descendants (p := Tree.root) hpos h.not_lost_root
  rw [hbelow, hnone, List.nil_append]

/-- The new node is no element. -/
theorem Framed.element?_of_mem_added (h : Framed marker s t u) {p n : Nat}
    (hn : n ∈ s.added t p) : u.element? n = none := by
  obtain ⟨htitle, rfl⟩ := Sites.mem_added.1 hn
  obtain ⟨-, body, hk⟩ := h.text p htitle
  rw [Tree.element?, hk]
  rfl

/-- An element of the page was there before. -/
theorem Framed.of_element (h : Framed marker s t u) (hpos : 0 < t.size) {n : Nat}
    (hn : n ∈ u.descendants Tree.root) (he : ∃ e, u.element? n = some e) :
    n ∈ t.descendants Tree.root ∧ ¬ s.Lost t n := by
  rw [h.descendants hpos, List.mem_flatMap] at hn
  obtain ⟨m, hm, hnm⟩ := hn
  rcases List.mem_cons.1 hnm with rfl | hnm
  · simpa using List.mem_filter.1 hm
  · obtain ⟨e, he⟩ := he
    cases (h.element?_of_mem_added hnm).symm.trans he

/-- What is left of a page is the element that it was. -/
theorem Framed.element?_eq (h : Framed marker s t u) {n : Nat} (hn : n < t.size)
    (hl : ¬ s.Lost t n) : u.element? n = t.element? n := by
  unfold Tree.element?
  rw [h.kind n hn hl]
  split
  · cases t.kind n <;> rfl
  · rfl

/-- A listing of elements loses those that are lost, and no others. -/
theorem Framed.filter_elements (h : Framed marker s t u) (hpos : 0 < t.size)
    {p : Option Element → Bool} (hnone : p none = false) :
    (u.descendants Tree.root).filter (fun n => p (u.element? n)) =
      ((t.descendants Tree.root).filter fun n => p (t.element? n)).filter (¬ s.Lost t ·) := by
  have hrow : ∀ n ∈ (t.descendants Tree.root).filter (¬ s.Lost t ·),
      (n :: s.added t n).filter (fun n => p (u.element? n)) =
        [n].filter fun n => p (t.element? n) := by
    intro n hn
    obtain ⟨hn, hl⟩ := List.mem_filter.1 hn
    have hadded : (s.added t n).filter (fun n => p (u.element? n)) = [] := by
      rw [List.filter_eq_nil_iff]
      intro m hm
      rw [h.element?_of_mem_added hm, hnone]
      exact Bool.false_ne_true
    rw [List.filter_cons, List.filter_cons, hadded,
      h.element?_eq (Tree.lt_of_mem_descendants hn).2 (by simpa using hl)]
    rfl
  rw [h.descendants hpos, List.filter_flatMap, List.flatMap_congr hrow, ← List.filter_flatMap,
    List.flatMap_singleton', List.filter_filter, List.filter_filter]
  exact List.filter_congr fun n _ => Bool.and_comm _ _

/-- The title of a page stays its title, if it is not lost. -/
theorem Framed.titleNode {page page' : Page} (h : Framed marker s page.tree page'.tree)
    (hpos : 0 < page.tree.size) {id : Nat} (hid : page.titleNode = some id)
    (hl : ¬ s.Lost page.tree id) : page'.titleNode = some id := by
  have htitles := h.filter_elements (p := Option.any (Element.hasName · "title")) hpos rfl
  obtain ⟨rest, hrest⟩ := List.head?_eq_some_iff.1 hid
  show List.head? (List.filter _ _) = _
  refine (congrArg List.head? htitles).trans ?_
  refine (congrArg (fun ids => List.head? (List.filter _ ids)) hrest).trans ?_
  rw [List.filter_cons_of_pos (by simpa using hl)]
  rfl

/-! ### Each edit keeps the frame -/

/-- A row of the page may be unlinked. -/
theorem Framed.remove (h : Framed marker s t u) (hs : s.row = none) (hpos : 0 < t.size)
    (hu : u.Linked) {row : Nat} (hrow : row ∈ u.descendants Tree.root)
    (he : ∃ e, u.element? row = some e) :
    Framed marker { s with row := some row } t (u.detach row).1 := by
  obtain ⟨hon, hl⟩ := h.of_element hpos hrow he
  have hlt := (Tree.lt_of_mem_descendants hon).2
  obtain ⟨p, -, hp⟩ := hu.parent_of_mem_descendants hrow
  have hlost : ∀ n < t.size,
      (Sites.Lost { s with row := some row } t n ↔ s.Lost t n ∨ n ∈ row :: u.descendants row) := by
    intro n hn
    have hbelow := h.cut.mem_descendants_iff hlt hl hn
    rw [Sites.lost_row hs, List.mem_cons, List.mem_cons, hbelow]
    tauto
  have hkept : ∀ n < t.size, ¬ Sites.Lost { s with row := some row } t n →
      ¬ s.Lost t n ∧ n ∉ row :: u.descendants row := fun n hn hln =>
    not_or.1 (mt (hlost n hn).2 hln)
  have hcut := h.cut.trans (hu.cut_detach hp) h.size_le fun {q n} _ _ hn => by
    obtain ⟨htitle, rfl⟩ := Sites.mem_added.1 hn
    refine ⟨?_, rfl⟩
    rw [h.size, htitle]
    exact Nat.lt_succ_self _
  refine { onPage := ?_, cut := ?_, parent := ?_, kind := ?_, size := ?_, text := ?_ }
  · rintro id (hid | hid | hid)
    · exact h.onPage id (.inl hid)
    · exact h.onPage id (.inr (.inl hid))
    · obtain rfl := Option.some.inj hid
      exact hon
  · refine hcut.congr (fun hp hc => hp.below hc) hlost fun q hq hlq => ?_
    rw [List.append_nil]
    refine (List.filter_eq_self.2 fun n hn => ?_).symm
    -- the new text is below the row only if the title is
    obtain ⟨htitle, rfl⟩ := Sites.mem_added.1 hn
    have hout : t.size ∉ row :: u.descendants row := by
      intro hm
      have hbelow := (List.mem_cons.1 hm).resolve_left (Nat.ne_of_gt hlt)
      have hchild := hu.mem_children_iff.2 (h.text q htitle).1
      exact (hkept q hq hlq).2 (List.mem_cons.2 (hu.mem_of_mem_children hchild hbelow))
    simpa using hout
  · intro n hn hln
    have hne : n ≠ row := fun he => (hkept n hn hln).2 (he ▸ List.mem_cons_self)
    rw [Tree.parent_detach, if_neg hne]
    exact h.parent n hn (hkept n hn hln).1
  · intro n hn hln
    rw [Tree.kind_detach]
    exact h.kind n hn (hkept n hn hln).1
  · rw [Tree.size_detach]
    exact h.size
  · intro id hid
    rw [Tree.parent_detach, Tree.kind_detach, if_neg (Nat.ne_of_gt hlt)]
    exact h.text id hid

/-- What an element of the page holds may be replaced by a text. -/
theorem Framed.retitle (h : Framed marker s t u) (hs : s.title = none) (hpos : 0 < t.size)
    (hu : u.Linked) {id : Nat} (hid : id ∈ u.descendants Tree.root)
    (he : ∃ e, u.element? id = some e) (body : String) :
    Framed marker { s with title := some id } t (u.setText id body) := by
  obtain ⟨hon, hl⟩ := h.of_element hpos hid he
  have hlt := (Tree.lt_of_mem_descendants hon).2
  have hidu := (Tree.lt_of_mem_descendants hid).2
  have hsize : u.size = t.size := by
    rw [h.size, hs]
    rfl
  have hlost : ∀ n < t.size,
      (Sites.Lost { s with title := some id } t n ↔ s.Lost t n ∨ n ∈ u.descendants id) := by
    intro n hn
    have hbelow := h.cut.mem_descendants_iff hlt hl hn
    rw [Sites.lost_title hs, hbelow]
    tauto
  have hkept : ∀ n < t.size, ¬ Sites.Lost { s with title := some id } t n →
      ¬ s.Lost t n ∧ n ∉ u.descendants id := fun n hn hln => not_or.1 (mt (hlost n hn).2 hln)
  have hnone : ∀ p, s.added t p = [] := fun p => if_neg (by simp [hs])
  have hcut := h.cut.trans (hu.cut_setText hidu body) h.size_le fun {q n} _ _ hn => by
    rw [hnone] at hn
    cases hn
  refine { onPage := ?_, cut := ?_, parent := ?_, kind := ?_, size := ?_, text := ?_ }
  · rintro n (hn | hn | hn)
    · obtain rfl := Option.some.inj hn
      exact hon
    · exact h.onPage n (.inr (.inl hn))
    · exact h.onPage n (.inr (.inr hn))
  · refine hcut.congr (fun hp hc => hp.below hc) hlost fun p _ _ => ?_
    rw [hnone, hsize]
    simp [Sites.added, eq_comm]
  · intro n hn hln
    obtain ⟨hkeep, hout⟩ := hkept n hn hln
    have hchild : n ∉ u.children id := fun hc => hout (Tree.mem_descendants_of_mem_children hc)
    rw [Tree.parent_setText hidu, hsize, if_neg (Nat.ne_of_lt hn), if_neg hchild]
    exact h.parent n hn hkeep
  · intro n hn hln
    rw [Tree.kind_setText hidu, hsize, if_neg (Nat.ne_of_lt hn)]
    exact h.kind n hn (hkept n hn hln).1
  · rw [Tree.size_setText hidu, hsize]
    rfl
  · intro n hn
    obtain rfl := Option.some.inj hn
    rw [Tree.parent_setText hidu, Tree.kind_setText hidu, hsize, if_pos rfl, if_pos rfl]
    exact ⟨rfl, body, rfl⟩

/-- The marker may be taken from the texts below an element of the page. -/
theorem Framed.strip (h : Framed marker s t u) (hs : s.heading = none) (hpos : 0 < t.size)
    (hu : u.Linked) {id : Nat} (hid : id ∈ u.descendants Tree.root)
    (he : ∃ e, u.element? id = some e) :
    Framed marker { s with heading := some id } t (u.replaceText id marker "").1 := by
  obtain ⟨hon, hl⟩ := h.of_element hpos hid he
  have hlt := (Tree.lt_of_mem_descendants hon).2
  refine { onPage := ?_, cut := ?_, parent := ?_, kind := ?_, size := ?_, text := ?_ }
  · rintro n (hn | hn | hn)
    · exact h.onPage n (.inl hn)
    · obtain rfl := Option.some.inj hn
      exact hon
    · exact h.onPage n (.inr (.inr hn))
  · exact h.cut.of_children fun i => Tree.children_replaceText u marker "" id i
  · intro n hn hln
    rw [Tree.parent_replaceText]
    exact h.parent n hn hln
  · intro n hn hln
    have hln : ¬ s.Lost t n := hln
    have hsame : u.kind n = t.kind n := by
      rw [h.kind n hn hln, if_neg]
      simp [Sites.Stripped, hs]
    have hbelow := h.cut.mem_descendants_iff hlt hl hn
    have hstripped : Sites.Stripped { s with heading := some id } t n ↔
        n ∈ id :: u.descendants id := by
      simp [Sites.Stripped, hbelow, hln]
    rw [hu.kind_replaceText, hsame]
    simp only [hstripped]
  · rw [Tree.size_replaceText]
    exact h.size
  · intro title htitle
    obtain ⟨hparent, body, hk⟩ := h.text title htitle
    refine ⟨by rw [Tree.parent_replaceText, hparent], ?_⟩
    rw [hu.kind_replaceText, hk]
    split
    · exact ⟨_, rfl⟩
    · exact ⟨_, rfl⟩

end

/-! ## Rules and runs -/

section
variable {config : Config} {s : Sites} {t : Tree} {page : Page}

theorem Rule.sites_titleSuffix (hfired : (titleSuffix.apply config page).2 = true) :
    titleSuffix.sites config page =
      { title := page.titleNode
        heading := ((retitled config.titleSuffix page).headings config.titleSuffix.headingTag
          config.titleSuffix.headingClass).head? } := if_pos hfired

/-- A rule that does not fire edits nothing. -/
theorem Rule.sites_eq_none {r : Rule} (h : page.tree.Shaped)
    (hfired : (r.apply config page).2 = false) : r.sites config page = {} := by
  cases r with
  | titleSuffix => exact if_neg (Bool.eq_false_iff.1 hfired)
  | importStatement =>
    have hnone : importRow config.importStatement page = none := by
      refine Option.eq_none_iff_forall_ne_some.2 fun row hrow => ?_
      exact Bool.false_ne_true (hfired.symm.trans (removeImportStatement_fires h.proper hrow).1)
    rw [Rule.sites, hnone]

/-- A rule keeps the frame, if it did not edit the page before. -/
theorem Rule.framed_apply (hc : config.check = .ok ()) (hpos : 0 < t.size)
    (h : Framed config.titleSuffix.marker s t page.tree) (hshaped : page.tree.Shaped) {r : Rule}
    (htitle : r = .titleSuffix → s.title = none ∧ s.heading = none)
    (hrow : r = .importStatement → s.row = none) :
    Framed config.titleSuffix.marker (s.or (r.sites config page)) t
      (r.apply config page).1.tree := by
  cases hfired : (r.apply config page).2 with
  | false =>
    rw [apply_eq_self hfired, Rule.sites_eq_none hshaped hfired, Sites.or_none]
    exact h
  | true =>
    cases r with
    | titleSuffix =>
      obtain ⟨hnone, hnone'⟩ := htitle rfl
      obtain ⟨id, hid, hleaf, -, htree, hresult⟩ := stripTitleSuffix_cases hshaped
        (ne_empty_of_checkMarker (Config.checkMarker_of_check hc).1) hfired
      obtain ⟨hdesc, e, he, -⟩ := element_of_mem_elementsNamed (List.mem_of_head? hid)
      have hretitled : Framed config.titleSuffix.marker { s with title := some id } t
          (retitled config.titleSuffix page).tree := by
        rw [htree]
        exact h.retitle hnone hpos hshaped.linked hdesc ⟨e, he⟩ _
      have hlinked : (retitled config.titleSuffix page).tree.Linked := by
        rw [htree]
        exact hshaped.linked.setText (Tree.lt_of_mem_descendants hdesc).2 _
      rw [sites_titleSuffix hfired, hid]
      show Framed _ _ t (stripTitleSuffix config.titleSuffix page).1.tree
      rcases hresult with ⟨hheading, hresult⟩ | ⟨heading, hheading, hresult⟩
      · rw [hresult, hheading]
        simpa [Sites.or, hnone, hnone'] using hretitled
      · obtain ⟨hbelow, e', he', -⟩ := element_of_mem_elementsNamed
          (List.mem_filter.1 (List.mem_of_head? hheading)).1
        have hstripped := hretitled.strip hnone' hpos hlinked hbelow ⟨e', he'⟩
        rw [hresult, hheading]
        simpa [Sites.or, hnone, hnone'] using hstripped
    | importStatement =>
      have hnone := hrow rfl
      obtain ⟨row, hfound⟩ := exists_importRow_of_fires hfired
      obtain ⟨hon, helement, -⟩ := importRow_cases hshaped.proper hfound
      have hremoved := h.remove hnone hpos hshaped.linked hon helement
      show Framed _ _ t (removeImportStatement config.importStatement page).1.tree
      rw [(removeImportStatement_fires hshaped.proper hfound).2, Rule.sites, hfound]
      simpa [Sites.or, hnone] using hremoved

/-- Rules that run one behind the other keep the frame, if each runs once. -/
theorem framed_applyRules (hc : config.check = .ok ()) (hpos : 0 < t.size) {rs : List Rule}
    (hrs : rs.Nodup) (h : Framed config.titleSuffix.marker s t page.tree)
    (hshaped : page.tree.Shaped)
    (htitle : Rule.titleSuffix ∈ rs → s.title = none ∧ s.heading = none)
    (hrow : Rule.importStatement ∈ rs → s.row = none) :
    Framed config.titleSuffix.marker (s.or (sites config rs page)) t
      (applyRules config rs page).1.tree := by
  induction rs generalizing s page with
  | nil =>
    rw [sites, Sites.or_none]
    exact h
  | cons r rs ih =>
    obtain ⟨hr, hrs⟩ := List.nodup_cons.1 hrs
    have hstep := Rule.framed_apply hc hpos h hshaped (r := r)
      (fun he => htitle (he ▸ List.mem_cons_self)) fun he => hrow (he ▸ List.mem_cons_self)
    rw [sites, ← Sites.or_assoc]
    refine ih hrs hstep (Rule.shaped_apply hc hshaped r) (fun hlater => ?_) fun hlater => ?_
    · -- the title rule is still to come, so this one is the other
      obtain ⟨hnone, hnone'⟩ := htitle (List.mem_cons_of_mem r hlater)
      cases r with
      | titleSuffix => exact absurd hlater hr
      | importStatement => exact ⟨by rw [Sites.or, hnone]; rfl, by rw [Sites.or, hnone']; rfl⟩
    · have hnone := hrow (List.mem_cons_of_mem r hlater)
      cases r with
      | importStatement => exact absurd hlater hr
      | titleSuffix =>
        rw [Sites.or, hnone, Rule.sites]
        split <;> rfl

/-! ### Sites and rules that fire -/

/-- A rule has a site just when it fires. -/
theorem Rule.isSome_sites (hc : config.check = .ok ()) (h : page.tree.Shaped) (r : Rule) :
    ((r.sites config page).title.isSome = true ↔
        r = .titleSuffix ∧ (r.apply config page).2 = true) ∧
      ((r.sites config page).heading.isSome = true →
        r = .titleSuffix ∧ (r.apply config page).2 = true) ∧
      ((r.sites config page).row.isSome = true ↔
        r = .importStatement ∧ (r.apply config page).2 = true) := by
  cases hfired : (r.apply config page).2 with
  | false =>
    rw [sites_eq_none h hfired]
    simp
  | true =>
    cases r with
    | titleSuffix =>
      obtain ⟨id, hid, -⟩ := stripTitleSuffix_cases h
        (ne_empty_of_checkMarker (Config.checkMarker_of_check hc).1) hfired
      rw [sites_titleSuffix hfired, hid]
      simp
    | importStatement =>
      obtain ⟨row, hfound⟩ := exists_importRow_of_fires hfired
      rw [Rule.sites, hfound]
      simp

theorem mem_applyRules_cons {r r' : Rule} {rs : List Rule} :
    r' ∈ (applyRules config (r :: rs) page).2 ↔
      r = r' ∧ (r.apply config page).2 = true ∨
        r' ∈ (applyRules config rs (r.apply config page).1).2 := by
  simp only [applyRules]
  cases (r.apply config page).2 <;> simp [eq_comm]

/-- A run has a site for each rule that fires, and for no other. -/
theorem isSome_sites (hc : config.check = .ok ()) (h : page.tree.Shaped) (rs : List Rule) :
    ((sites config rs page).title.isSome = true ↔
        Rule.titleSuffix ∈ (applyRules config rs page).2) ∧
      ((sites config rs page).heading.isSome = true →
        Rule.titleSuffix ∈ (applyRules config rs page).2) ∧
      ((sites config rs page).row.isSome = true ↔
        Rule.importStatement ∈ (applyRules config rs page).2) := by
  induction rs generalizing page with
  | nil => simp [sites, applyRules]
  | cons r rs ih =>
    obtain ⟨htitle, hheading, hrow⟩ := Rule.isSome_sites hc h r
    obtain ⟨htitle', hheading', hrow'⟩ := ih (Rule.shaped_apply hc h r)
    simp only [mem_applyRules_cons, sites, Sites.or, Option.isSome_or, Bool.or_eq_true, htitle,
      htitle', hrow, hrow', true_and, iff_self, and_true]
    exact Or.imp hheading hheading'

/-- A run of the rules on a page that was read edits the page at its sites alone. What is left
stands in the old order, and the text of the title is the only new node. Each site belongs to a rule
that fired; where none fires, the page is as it was. -/
theorem mend_framed (hc : config.check = .ok ()) {path source : String} {t : Tree}
    (hp : parse source = .ok t) :
    let page : Page := ⟨path, source, t, false⟩
    let s := sites config (activeRules config.pipeline) page
    let mended := (mend config page).1
    let fired := (mend config page).2
    Framed config.titleSuffix.marker s t mended.tree ∧
      mended.tree.descendants Tree.root =
        ((t.descendants Tree.root).filter (¬ s.Lost t ·)).flatMap (fun n => n :: s.added t n) ∧
      (s.title.isSome = true ↔ Rule.titleSuffix ∈ fired) ∧
      (s.heading.isSome = true → Rule.titleSuffix ∈ fired) ∧
      (s.row.isSome = true ↔ Rule.importStatement ∈ fired) ∧
      (fired = [] → mended = page) := by
  intro page s mended fired
  have hshaped : page.tree.Shaped := (sound_of_parse hp).shaped
  have hframed : Framed config.titleSuffix.marker s t mended.tree := by
    have hrun := framed_applyRules hc hshaped.pos (nodup_activeRules config.pipeline)
      (framed_refl config.titleSuffix.marker t) hshaped (fun _ => ⟨rfl, rfl⟩) fun _ => rfl
    rw [tree_mend]
    exact hrun
  obtain ⟨htitle, hheading, hrow⟩ := isSome_sites hc hshaped (activeRules config.pipeline)
  exact ⟨hframed, hframed.descendants hshaped.pos, htitle, hheading, hrow, mend_eq_self⟩

end

/-- A title in the heading that is mended, and a row in a table in that heading. -/
theorem mend_framed_nested :
    let config : Config :=
      { titleSuffix := { marker := "M" }, importStatement := { marker := "I" } }
    let source := "<h1 class=\"title\">aM<title>bM<b>c</b></title>" ++
      "<table><tr><td>I</td></tr></table></h1>"
    ∃ t, parse source = .ok t ∧
      Framed "M" ⟨some 3, some 1, some 8⟩ t (mend config ⟨"", source, t, false⟩).1.tree ∧
      (mend config ⟨"", source, t, false⟩).1.tree.descendants Tree.root = [1, 2, 3, 11, 7] ∧
      (mend config ⟨"", source, t, false⟩).1.serialize =
        "<h1 class=\"title\">a<title>bc</title><table></table></h1>" := by
  intro config source
  have hcheck : Config.check
      { titleSuffix := { marker := "M" }, importStatement := { marker := "I" } } = .ok () := by rfl
  have hrun : ((parse source).toOption.map fun t =>
      (sites config (activeRules config.pipeline) ⟨"", source, t, false⟩,
        (mend config ⟨"", source, t, false⟩).1.tree.descendants Tree.root,
        (mend config ⟨"", source, t, false⟩).1.serialize)) =
      some (⟨some 3, some 1, some 8⟩, [1, 2, 3, 11, 7],
        "<h1 class=\"title\">a<title>bc</title><table></table></h1>") := by
    decide +kernel
  obtain ⟨t, hp, hrun⟩ := exists_ok_of_map hrun
  simp only [Prod.mk.injEq] at hrun
  obtain ⟨hsites, horder, hwritten⟩ := hrun
  obtain ⟨hframed, -⟩ := mend_framed hcheck hp
  exact ⟨t, hp, hsites ▸ hframed, horder, hwritten⟩

end PageMend
