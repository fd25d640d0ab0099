import PageMend.Proofs.Markup.Around
import PageMend.Proofs.Markup.Lookup
import PageMend.Proofs.Markup.Order

/-!
# Edits in document order

An edit changes the links of one node or two, and document order in one piece (`Spliced`), at any
depth. Unlinking a node takes out the node with what is below it (`Linked.spliced_detach`);
replacing what a node holds by a text puts one new node in the place of all that was below it
(`Linked.spliced_setText`); and a new child comes behind all that was below its parent
(`Linked.spliced_appendChild`). What carries this is that trees that are the same but for one place
have the same order around it (`Linked.exists_order`).
-/

namespace PageMend.Markup

/-- Two lists that are the same but for one piece. -/
def Spliced (old new before after : List Nat) : Prop :=
  ∃ front back, before = front ++ old ++ back ∧ after = front ++ new ++ back

theorem Spliced.cons {old new before after : List Nat} (h : Spliced old new before after)
    (n : Nat) : Spliced old new (n :: before) (n :: after) := by
  obtain ⟨front, back, rfl, rfl⟩ := h
  exact ⟨n :: front, back, rfl, rfl⟩

namespace Tree

/-- A row of nodes in document order, each in front of what is below it. -/
def order (t : Tree) (ids : List Nat) : List Nat := ids.flatMap fun id => id :: t.descendants id

section
variable {t u : Tree} {id : Nat} {ids : List Nat}

theorem order_singleton (t : Tree) (id : Nat) : t.order [id] = id :: t.descendants id :=
  List.flatMap_singleton _ id

/-- What is below a node that is apart from the place stands in the old order. -/
theorem Patch.descendants_eq (h : t.Patch u id ids) {c : Nat} (hc : c < t.size)
    (hapart : ∀ n ∈ c :: t.descendants c, n ∉ id :: t.descendants id) :
    u.descendants c = t.descendants c := by
  refine descendants_congr fun i hi => ?_
  have hlt : i < t.size := by
    rcases hi with rfl | hi
    · exact hc
    · exact (lt_of_mem_descendants hi).2
  have hid : id ∉ t.children i := by
    intro hm
    exact hapart id (List.mem_cons_of_mem c (mem_descendants_iff.2 ⟨i, hi, hm⟩)) List.mem_cons_self
  rw [h.children hlt (hapart i (List.mem_cons.2 hi)), exchange_of_not_mem ids hid]

/-- Above the place, a node stands in front of what is below it. -/
theorem rowwise_order (t : Tree) (id : Nat) : t.Rowwise id order where
  append _ _ _ := List.flatMap_append
  apart := by
    intro u ids hu cs hlt hapart
    have hid : id ∉ cs := fun hm => hapart id hm id List.mem_cons_self List.mem_cons_self
    rw [exchange_of_not_mem ids hid]
    refine List.flatMap_congr fun c hc => ?_
    rw [hu.descendants_eq (hlt c hc) (hapart c hc)]
  above := by
    intro c _
    refine ⟨[c], [], fun {u ids} _ => ?_⟩
    rw [order_singleton, descendants_eq u c, List.append_nil]
    rfl

/-- Around one place of a tree, all trees that are the same but for this place have the same
order. -/
theorem Linked.exists_order (h : t.Linked) {a : Nat} (hid : id ∈ t.descendants a) :
    ∃ front back, ∀ {u ids}, t.Patch u id ids → u.descendants a = front ++ u.order ids ++ back := by
  obtain ⟨front, back, hpieces⟩ := h.exists_pieces (t.rowwise_order id) hid
  refine ⟨front, back, fun {u ids} hu => ?_⟩
  rw [descendants_eq u a]
  exact hpieces hu

/-- What stands in the place of a node makes up the difference. -/
theorem Linked.spliced (h : t.Linked) {a : Nat} (hid : id ∈ t.descendants a)
    (hu : t.Patch u id ids) :
    Spliced (id :: t.descendants id) (u.order ids) (t.descendants a) (u.descendants a) := by
  obtain ⟨front, back, horder⟩ := h.exists_order hid
  refine ⟨front, back, ?_, horder hu⟩
  rw [horder (patch_refl t id), order_singleton]

/-! ## Unlinking a node -/

theorem Linked.spliced_detach (h : t.Linked) {a : Nat} (hid : id ∈ t.descendants a) :
    Spliced (id :: t.descendants id) [] (t.descendants a) ((t.detach id).1.descendants a) := by
  obtain ⟨q, -, hq⟩ := h.parent_of_mem_descendants hid
  exact h.spliced hid (h.patch_detach hq)

/-- A node that is unlinked takes along what is below it, in its order. -/
theorem descendants_detach_self (t : Tree) (id : Nat) :
    (t.detach id).1.descendants id = t.descendants id := by
  cases hp : t.parent id with
  | none => rw [detach_eq_self hp]
  | some q =>
    refine descendants_congr fun i hi => ?_
    have hlt := parent_lt hp
    have hne : i ≠ q := by
      rintro rfl
      rcases hi with rfl | hi
      · exact Nat.lt_irrefl _ hlt
      · exact Nat.lt_asymm hlt (lt_of_mem_descendants hi).1
    rw [children_detach hp, if_neg hne]

/-- A node that is unlinked is not unlinked again. -/
theorem detach_detach (t : Tree) (id : Nat) :
    (t.detach id).1.detach id = ((t.detach id).1, false) := by
  apply detach_eq_self
  rw [parent_detach, if_pos rfl]

/-! ## Replacing what a node holds -/

theorem Linked.spliced_setText (h : t.Linked) {a : Nat} (hid : id ∈ t.descendants a)
    (body : String) :
    Spliced (id :: t.descendants id) [id, t.size] (t.descendants a)
      ((t.setText id body).descendants a) := by
  have hlt := (lt_of_mem_descendants hid).2
  have hspliced := h.spliced hid (patch_setText hlt body)
  rwa [order_singleton, descendants_setText hlt] at hspliced

/-! ## A new child -/

/-- A new child changes nothing but what its parent holds. -/
theorem patch_appendChild {p : Nat} (hp : p < t.size) (k : Kind) :
    t.Patch (t.appendChild p k) p [p] where
  kind hi _ := kind_appendChild_old hp k hi
  children := by
    intro i hi hout
    have hne : i ≠ p := fun he => hout (List.mem_cons.2 (.inl he))
    rw [children_appendChild hp, if_neg hne, if_neg (Nat.ne_of_lt hi), exchange_self]

/-- A new child is the last of all that is below its parent. -/
theorem descendants_appendChild_self {p : Nat} (hp : p < t.size) (k : Kind) :
    (t.appendChild p k).descendants p = t.descendants p ++ [t.size] := by
  have hold : ∀ c ∈ t.children p, (t.appendChild p k).descendants c = t.descendants c := by
    intro c hc
    refine descendants_congr fun i hi => ?_
    obtain ⟨hpc, hcsize⟩ := lt_of_mem_children hc
    have hi : p < i ∧ i < t.size := by
      rcases hi with rfl | hi
      · exact ⟨hpc, hcsize⟩
      · exact ⟨Nat.lt_trans hpc (lt_of_mem_descendants hi).1, (lt_of_mem_descendants hi).2⟩
    rw [children_appendChild hp, if_neg (Nat.ne_of_gt hi.1), if_neg (Nat.ne_of_lt hi.2)]
  have hnew : (t.appendChild p k).descendants t.size = [] := by
    rw [descendants_eq, children_appendChild hp, if_neg (Nat.ne_of_gt hp), if_pos rfl]
    rfl
  rw [descendants_eq, children_appendChild hp, if_pos rfl, List.flatMap_append,
    List.flatMap_singleton, hnew, descendants_eq t p]
  exact congrArg (· ++ [t.size]) (List.flatMap_congr fun c hc => by rw [hold c hc])

theorem Linked.spliced_appendChild (h : t.Linked) {a p : Nat} (hp : p < t.size)
    (hpa : p = a ∨ p ∈ t.descendants a) (k : Kind) :
    Spliced (p :: t.descendants p) (p :: t.descendants p ++ [t.size]) (a :: t.descendants a)
      (a :: (t.appendChild p k).descendants a) := by
  rcases hpa with rfl | hpa
  · refine ⟨[], [], ?_, ?_⟩
    · rw [List.nil_append, List.append_nil]
    · rw [descendants_appendChild_self hp, List.nil_append, List.append_nil]
      rfl
  · have hspliced := h.spliced hpa (patch_appendChild hp k)
    rw [order_singleton, descendants_appendChild_self hp] at hspliced
    exact hspliced.cons a

end

end Tree

/-- In a tree that came about by edits, each edit at a node of the page changes document order in
one piece. Unlinking a node leaves the others in their order, as the node leaves all that is below
it, and a second time nothing happens. A text comes in the place of all that was below a node, and a
new child behind all that is below its parent, which may be the root. New nodes have the first
number that was free. -/
theorem order_of_edits {edits : List Edit} {t : Tree} (h : Edit.runAll? .empty edits = some t) :
    (∀ id ∈ t.descendants Tree.root, ∃ u, Edit.run? t (.detach id) = some (u, .changed true) ∧
      u.descendants Tree.root = (t.descendants Tree.root).filter (· ∉ id :: t.descendants id) ∧
      Spliced (id :: t.descendants id) [] (t.descendants Tree.root) (u.descendants Tree.root) ∧
      u.descendants id = t.descendants id ∧
      Edit.run? u (.detach id) = some (u, .changed false)) ∧
    (∀ id ∈ t.descendants Tree.root, ∀ body, ∃ u,
      Edit.run? t (.setText id body) = some (u, .done) ∧
      Spliced (id :: t.descendants id) [id, t.size] (t.descendants Tree.root)
        (u.descendants Tree.root) ∧
      u.kind t.size = .text body) ∧
    ∀ p, p = Tree.root ∨ p ∈ t.descendants Tree.root → ∀ kind, ∃ u,
      Edit.run? t (.append p kind) = some (u, .created t.size) ∧
      Spliced (p :: t.descendants p) (p :: t.descendants p ++ [t.size])
        (Tree.root :: t.descendants Tree.root) (Tree.root :: u.descendants Tree.root) ∧
      u.kind t.size = kind := by
  obtain ⟨hlinked, hsize⟩ := Tree.linked_empty.runAll? h
  have hcontains : ∀ {u : Tree} {id : Nat}, id < u.size → u.contains id = true := fun hid =>
    decide_eq_true hid
  refine ⟨fun id hid => ?_, fun id hid body => ?_, fun p hp kind => ?_⟩
  · have hlt := (Tree.lt_of_mem_descendants hid).2
    obtain ⟨q, -, hq⟩ := hlinked.parent_of_mem_descendants hid
    refine ⟨(t.detach id).1, ?_, hlinked.descendants_detach hid, hlinked.spliced_detach hid,
      t.descendants_detach_self id, ?_⟩
    · rw [Edit.run?, if_pos (hcontains hlt), Tree.detach_eq hq]
    · have hlt : id < (t.detach id).1.size := by rwa [Tree.size_detach]
      rw [Edit.run?, if_pos (hcontains hlt), Tree.detach_detach]
  · have hlt := (Tree.lt_of_mem_descendants hid).2
    refine ⟨t.setText id body, ?_, hlinked.spliced_setText hid body, ?_⟩
    · rw [Edit.run?, if_pos (hcontains hlt)]
    · rw [Tree.kind_setText hlt, if_pos rfl]
  · have hlt : p < t.size := by
      rcases hp with rfl | hp
      · exact Nat.lt_of_lt_of_le Nat.one_pos hsize
      · exact (Tree.lt_of_mem_descendants hp).2
    refine ⟨t.appendChild p kind, ?_, hlinked.spliced_appendChild hlt hp kind, ?_⟩
    · rw [Edit.run?, if_pos (hcontains hlt)]
    · exact Tree.kind_appendChild_new hlt kind

/-- A list with two entries, one of which holds a text, in front of a paragraph: the entry is taken
away, emptied, and given a second text. -/
theorem order_of_five_edits :
    ∃ t, Edit.runAll? .empty
        [.append 0 (.element ⟨"ul", "", [], false⟩), .append 1 (.element ⟨"li", "", [], false⟩),
          .append 2 (.text "a"), .append 1 (.element ⟨"li", "", [], false⟩),
          .append 0 (.element ⟨"p", "", [], false⟩)] = some t ∧
      t.descendants 0 = [1, 2, 3, 4, 5] ∧
      (∃ u, Edit.run? t (.detach 2) = some (u, .changed true) ∧ u.descendants 0 = [1, 4, 5]) ∧
      (∃ u, Edit.run? t (.setText 2 "b") = some (u, .done) ∧
        Spliced [2, 3] [2, 6] [1, 2, 3, 4, 5] (u.descendants 0)) ∧
      ∃ u, Edit.run? t (.append 2 (.text "b")) = some (u, .created 6) ∧
        Spliced [2, 3] [2, 3, 6] [0, 1, 2, 3, 4, 5] (0 :: u.descendants 0) := by
  have hw : (Edit.runAll? .empty
      [.append 0 (.element ⟨"ul", "", [], false⟩), .append 1 (.element ⟨"li", "", [], false⟩),
        .append 2 (.text "a"), .append 1 (.element ⟨"li", "", [], false⟩),
        .append 0 (.element ⟨"p", "", [], false⟩)]).map
          (fun t => (t.size, (List.range 6).map t.children)) =
      some (6, [[1, 5], [2, 4], [3], [], [], []]) := by
    decide
  obtain ⟨t, ht, hfacts⟩ := Option.map_eq_some_iff.1 hw
  simp only [Prod.mk.injEq] at hfacts
  obtain ⟨hsize, hchildren⟩ := hfacts
  simp [List.range_succ] at hchildren
  have hinner : t.descendants 2 = [3] := by
    simp [Tree.descendants_eq t 2, Tree.descendants_eq t 3, hchildren]
  have hall : t.descendants Tree.root = [1, 2, 3, 4, 5] := by
    simp [Tree.root, Tree.descendants_eq t 0, Tree.descendants_eq t 1, hinner,
      Tree.descendants_eq t 4, Tree.descendants_eq t 5, hchildren]
  obtain ⟨hdetach, hsetText, happend⟩ := order_of_edits ht
  rw [hall] at hdetach
  rw [hall, hsize] at hsetText happend
  refine ⟨t, ht, hall, ?_, ?_, ?_⟩
  · obtain ⟨u, hrun, horder, -⟩ := hdetach 2 (by decide)
    refine ⟨u, hrun, ?_⟩
    rw [hinner] at horder
    exact horder
  · obtain ⟨u, hrun, hspliced, -⟩ := hsetText 2 (by decide) "b"
    rw [hinner] at hspliced
    exact ⟨u, hrun, hspliced⟩
  · obtain ⟨u, hrun, hspliced, -⟩ := happend 2 (by decide) (.text "b")
    rw [hinner] at hspliced
    exact ⟨u, hrun, hspliced⟩

end PageMend.Markup
