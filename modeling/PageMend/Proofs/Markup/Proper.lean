import PageMend.Proofs.Markup.Edits

/-!
# Proper trees

In a proper tree the links are in order, no node below another is a root, and what holds other nodes
is a root or an element; an element that is written without an end tag holds texts only
(`Tree.Proper`). This is less than the shape of a tree that a reader could have made
(`Shaped.proper`): an element that is its own end tag may have been given a text. So the edits of
the rules keep it whatever text they put in (`Proper.detach`, `Proper.setText`,
`Proper.replaceText`).

It is enough to know that what stands above an element has an end tag (`Proper.isLeaf_eq_false`).
-/

namespace PageMend.Markup.Tree

/-- A tree of which the rules can make anything that they make of a page. -/
structure Proper (t : Tree) : Prop where
  linked : t.Linked
  root : t.kind Tree.root = .root
  inner : ∀ {p c}, c ∈ t.children p → t.kind c ≠ .root
  /-- What holds another node has an end tag, or it is an element and the node is a text. -/
  holds : ∀ {p c}, c ∈ t.children p → (t.kind p).isLeaf = false ∨
    (∃ e, t.element? p = some e) ∧ ∃ body, t.kind c = .text body

theorem Shaped.proper {t : Tree} (h : t.Shaped) : t.Proper where
  linked := h.linked
  root := h.root
  inner := h.inner
  holds := by
    intro p c hc
    cases hl : (t.kind p).isLeaf with
    | false => exact .inl rfl
    | true =>
      rw [h.childless hl] at hc
      cases hc

section
variable {t : Tree}

theorem element?_of_kind {id : Nat} {e : Element} (h : t.kind id = .element e) :
    t.element? id = some e := by
  rw [element?, h]
  rfl

theorem kind_of_element? {id : Nat} {e : Element} (h : t.element? id = some e) :
    t.kind id = .element e := by
  unfold element? at h
  cases hk : t.kind id with
  | element e' =>
    rw [hk] at h
    cases h
    rfl
  | _ =>
    rw [hk] at h
    cases h

theorem lt_size_of_element? {id : Nat} {e : Element} (h : t.element? id = some e) :
    id < t.size :=
  lt_size_of_kind_ne fun hroot => by
    rw [kind_of_element? h] at hroot
    cases hroot

/-! ## Above a node -/

/-- What holds another node and is no root is an element. -/
theorem Proper.element_of_mem_children (h : t.Proper) {p c : Nat} (hc : c ∈ t.children p)
    (hp : t.kind p ≠ .root) : ∃ e, t.element? p = some e := by
  rcases h.holds hc with hl | ⟨he, -⟩
  · cases hk : t.kind p with
    | element e => exact ⟨e, element?_of_kind hk⟩
    | root => exact absurd hk hp
    | text body => rw [hk] at hl; cases hl
    | markup s => rw [hk] at hl; cases hl
  · exact he

/-- What holds a node below an element is an element. -/
theorem Proper.exists_element (h : t.Proper) {id n p : Nat} (hn : n ∈ t.descendants id)
    (hid : ∃ e, t.element? id = some e) (hp : t.parent n = some p) :
    ∃ e, t.element? p = some e := by
  obtain ⟨q, hq, hnq⟩ := h.linked.parent_of_mem_descendants hn
  obtain rfl : q = p := Option.some.inj (hnq.symm.trans hp)
  rcases hq with rfl | hq
  · exact hid
  · obtain ⟨r, -, hqr⟩ := mem_descendants_iff.1 hq
    exact h.element_of_mem_children (h.linked.mem_children_iff.2 hp) (h.inner hqr)

/-- What stands above an element has an end tag. -/
theorem Proper.isLeaf_eq_false (h : t.Proper) {a id : Nat} (hid : id ∈ t.descendants a)
    (he : ∃ e, t.element? id = some e) : (t.kind a).isLeaf = false := by
  obtain ⟨e, he⟩ := he
  obtain ⟨c, hc, hidc⟩ : ∃ c ∈ t.children a, id ∈ c :: t.descendants c := by
    rw [descendants_eq] at hid
    exact List.mem_flatMap.1 hid
  rcases h.holds hc with hl | ⟨-, body, hk⟩
  · exact hl
  · -- the child on the way to the element would be a text, which holds nothing
    have hnone : t.element? c = none := by
      rw [element?, hk]
      rfl
    rcases List.mem_cons.1 hidc with rfl | hidc
    · rw [hnone] at he
      cases he
    · obtain ⟨d, hd, -⟩ : ∃ d ∈ t.children c, id ∈ d :: t.descendants d := by
        rw [descendants_eq] at hidc
        exact List.mem_flatMap.1 hidc
      obtain ⟨e', he'⟩ := h.element_of_mem_children hd (by rw [hk]; exact Kind.noConfusion)
      rw [hnone] at he'
      cases he'

/-! ## Edits -/

theorem Proper.detach (h : t.Proper) (id : Nat) : (t.detach id).1.Proper where
  linked := h.linked.detach id
  root := by rw [kind_detach, h.root]
  inner := by
    intro p c hc
    rw [kind_detach]
    exact h.inner ((children_detach_sublist t id p).subset hc)
  holds := by
    intro p c hc
    rw [element?, kind_detach, kind_detach]
    exact h.holds ((children_detach_sublist t id p).subset hc)

/-- An element may be given any text for what it holds. -/
theorem Proper.setText (h : t.Proper) {id : Nat} {e : Element} (he : t.element? id = some e)
    (body : String) : (t.setText id body).Proper := by
  have hid := lt_size_of_element? he
  -- a child is the new text, or it and its parent were there before
  have hcases : ∀ {p c}, c ∈ (t.setText id body).children p →
      p = id ∧ c = t.size ∨ c ∈ t.children p ∧ c < t.size ∧ p < t.size := by
    intro p c hc
    rw [children_setText hid] at hc
    split at hc
    · rename_i hp
      exact .inl ⟨hp, List.mem_singleton.1 hc⟩
    · split at hc
      · cases hc
      · obtain ⟨hlt, hlt'⟩ := lt_of_mem_children hc
        exact .inr ⟨hc, hlt', Nat.lt_trans hlt hlt'⟩
  have hold : ∀ {i}, i < t.size → (t.setText id body).kind i = t.kind i := fun hi => by
    rw [kind_setText hid, if_neg (Nat.ne_of_lt hi)]
  have hnew : (t.setText id body).kind t.size = .text body := by
    rw [kind_setText hid, if_pos rfl]
  refine ⟨h.linked.setText hid body, ?_, fun {p c} hc => ?_, fun {p c} hc => ?_⟩
  · exact (hold (Nat.lt_of_le_of_lt (Nat.zero_le id) hid)).trans h.root
  · rcases hcases hc with ⟨rfl, rfl⟩ | ⟨hc, hlt, -⟩
    · rw [hnew]
      exact Kind.noConfusion
    · rw [hold hlt]
      exact h.inner hc
  · rcases hcases hc with ⟨rfl, rfl⟩ | ⟨hc, hlt, hlt'⟩
    · refine .inr ⟨⟨e, ?_⟩, body, hnew⟩
      rw [element?, hold hid]
      exact he
    · rw [element?, hold hlt, hold hlt']
      exact h.holds hc

/-- Replacing a pattern in one text leaves a proper tree. -/
theorem Proper.replaceHere (h : t.Proper) (pattern replacement : String) (n : Nat) :
    (t.replaceHere pattern replacement n).Proper where
  linked := h.linked.replaceHere n pattern replacement
  root := by
    rw [kind_replaceHere, h.root]
    exact ite_self _
  inner := by
    intro p c hc
    rw [children_replaceHere] at hc
    exact kind_replaceHere_ne_root (h.inner hc) pattern replacement n
  holds := by
    intro p c hc
    rw [children_replaceHere] at hc
    have hp : (t.replaceHere pattern replacement n).kind p = t.kind p := by
      rcases kind_replaceHere_cases t pattern replacement n p with hsame | ⟨-, body, htext, -⟩
      · exact hsame
      · -- a text holds nothing
        obtain ⟨e, he⟩ := h.element_of_mem_children hc (by rw [htext]; exact Kind.noConfusion)
        rw [element?, htext] at he
        cases he
    rw [element?, hp]
    refine (h.holds hc).imp_right fun hbody => ?_
    obtain ⟨he, body, hk⟩ := hbody
    refine ⟨he, ?_⟩
    rcases kind_replaceHere_cases t pattern replacement n c with hsame | ⟨-, before, -, hnew⟩
    · exact ⟨body, hsame.trans hk⟩
    · exact ⟨_, hnew⟩

theorem Proper.replaceText (h : t.Proper) (id : Nat) (pattern replacement : String) :
    (t.replaceText id pattern replacement).1.Proper :=
  replaceText_induction (P := Proper) t pattern replacement h fun _ n _ hu =>
    hu.replaceHere pattern replacement n

end

end PageMend.Markup.Tree
