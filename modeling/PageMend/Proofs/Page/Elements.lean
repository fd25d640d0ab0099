import PageMend.Page.Basic
import PageMend.Proofs.Markup.Normal

/-!
# What a page is searched for

Rules search a page for elements by their names and read the text in them. Both can be told from
the forest of the page alone: `elements_forest` lists the elements with what lies below each, and
`toList_text` is the text. So two pages with the same elements are the same to a rule, whatever the
numbers of their nodes.
-/

namespace PageMend.Markup

/-- What lies below the first element of that name. -/
def Forest.firstNamed (f : Forest Kind) (tag : String) : Option (Forest Kind) :=
  (f.elements.find? (·.1.hasName tag)).map Prod.snd

namespace Tree

/-- The elements below a node, each with what lies below it. -/
theorem elements_forest (t : Tree) (id : Nat) :
    (t.forest id).elements =
      (t.descendants id).filterMap fun c => (t.element? c).map fun e => (e, t.forest c) := by
  induction id using induction_rows (t := t) (Q := fun cs => (t.rowForest cs).elements =
    (cs.flatMap fun c => c :: t.descendants c).filterMap
      fun c => (t.element? c).map fun e => (e, t.forest c)) with
  | nil => rfl
  | cons c cs hc hcs =>
    have helement : (t.element? c).map (fun e => (e, t.forest c)) =
        (t.kind c).element?.map fun e => (e, t.forest c) := rfl
    rw [rowForest_cons, Forest.elements, hc, hcs, List.flatMap_cons, List.filterMap_append,
      List.filterMap_cons, helement]
    cases (t.kind c).element? <;> rfl
  | node id hrow =>
    rw [forest_eq, descendants_eq]
    exact hrow

theorem mem_elements_forest {t : Tree} {id : Nat} {p : Element × Forest Kind} :
    p ∈ (t.forest id).elements ↔
      ∃ c ∈ t.descendants id, t.element? c = some p.1 ∧ t.forest c = p.2 := by
  rw [elements_forest, List.mem_filterMap]
  refine exists_congr fun c => and_congr_right fun _ => ?_
  rw [Option.map_eq_some_iff]
  constructor
  · rintro ⟨e, he, rfl⟩
    exact ⟨he, rfl⟩
  · rintro ⟨he, hforest⟩
    exact ⟨p.1, he, by rw [hforest]⟩

/-- The text of an element is that of what lies below it. -/
theorem toList_text {t : Tree} {id : Nat} (h : t.text? id = none) :
    (t.text id).toList = (t.forest id).text := by
  have hjoin : (String.join ((t.descendants id).filterMap t.text?)).toList =
      (t.forest id).text := by
    clear h
    induction id using induction_rows (t := t) (Q := fun cs =>
      (String.join ((cs.flatMap fun c => c :: t.descendants c).filterMap t.text?)).toList =
        (t.rowForest cs).text) with
    | nil => rfl
    | cons c cs hc hcs =>
      have htext : t.text? c = (t.kind c).text? := rfl
      rw [rowForest_cons, Forest.text, ← hc, ← hcs, List.flatMap_cons, List.filterMap_append,
        List.filterMap_cons, htext]
      cases (t.kind c).text? <;> simp
    | node id hrow =>
      rw [forest_eq, descendants_eq]
      exact hrow
  rw [text, h]
  exact hjoin

theorem exists_of_isNamed {t : Tree} {tag : String} {id : Nat} (h : t.isNamed tag id = true) :
    ∃ e, t.element? id = some e ∧ e.hasName tag = true := by
  unfold isNamed at h
  cases he : t.element? id with
  | none => rw [he] at h; cases h
  | some e =>
    rw [he] at h
    exact ⟨e, rfl, h⟩

theorem text?_of_element? {t : Tree} {id : Nat} {e : Element} (h : t.element? id = some e) :
    t.text? id = none := by
  unfold element? at h
  unfold text?
  cases hk : t.kind id with
  | text body => rw [hk] at h; cases h
  | _ => rfl

/-- The first element of a name below a node, as a node and as a forest. -/
theorem firstNamed_forest (t : Tree) (id : Nat) (tag : String) :
    (t.forest id).firstNamed tag = (t.elementsNamed id tag).head?.map t.forest := by
  rw [Forest.firstNamed, elements_forest, elementsNamed, List.head?_filter]
  induction t.descendants id with
  | nil => rfl
  | cons c cs ih =>
    rw [List.filterMap_cons, List.find?_cons]
    cases he : t.element? c with
    | none =>
      have hn : t.isNamed tag c = false := by rw [isNamed, he]; rfl
      rw [hn]
      exact ih
    | some e =>
      cases hn : e.hasName tag with
      | false =>
        have hc : t.isNamed tag c = false := by rw [isNamed, he]; exact hn
        rw [hc]
        simp only [Option.map_some, List.find?_cons, hn]
        exact ih
      | true =>
        have hc : t.isNamed tag c = true := by rw [isNamed, he]; exact hn
        rw [hc]
        simp only [Option.map_some, List.find?_cons, hn]

end Tree

end PageMend.Markup
