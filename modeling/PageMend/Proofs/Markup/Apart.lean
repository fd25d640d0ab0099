import PageMend.Proofs.Markup.Edits

/-!
# Nodes that stand apart

Two nodes stand apart if they differ and neither is below the other (`Tree.Apart`). Whatever is
below one of them then stands apart from the other (`Apart.of_mem_descendants`): a node below both
would have both above it, and of two nodes above a third one is above the other
(`Linked.comparable`).

Unlinking a node commutes with what is done to a node that it is not below: with replacing what that
node holds by a text (`Linked.setText_detach`), and with replacing text below it
(`Linked.replaceText_detach`).
-/

namespace PageMend.Markup.Tree

/-- Whether two nodes differ and neither is below the other. -/
structure Apart (t : Tree) (a b : Nat) : Prop where
  ne : a ≠ b
  not_below : a ∉ t.descendants b
  not_above : b ∉ t.descendants a

instance (t : Tree) (a b : Nat) : Decidable (t.Apart a b) :=
  decidable_of_iff (a ≠ b ∧ a ∉ t.descendants b ∧ b ∉ t.descendants a)
    ⟨fun ⟨ne, below, above⟩ => ⟨ne, below, above⟩, fun ⟨ne, below, above⟩ => ⟨ne, below, above⟩⟩

section
variable {t u : Tree}

theorem Apart.symm {a b : Nat} (h : t.Apart a b) : t.Apart b a :=
  ⟨h.ne.symm, h.not_above, h.not_below⟩

/-- Of two nodes that have something at or below both, one is at or below the other. -/
theorem Linked.comparable (h : t.Linked) {a b n : Nat} (ha : n = a ∨ n ∈ t.descendants a)
    (hb : n = b ∨ n ∈ t.descendants b) : a = b ∨ a ∈ t.descendants b ∨ b ∈ t.descendants a := by
  induction n using Nat.strongRecOn with
  | ind n ih =>
    rcases ha with rfl | ha
    · exact hb.imp_right .inl
    · rcases hb with rfl | hb
      · exact .inr (.inr ha)
      · -- its parent is at or below both
        obtain ⟨p, hpa, hp⟩ := h.parent_of_mem_descendants ha
        obtain ⟨q, hqb, hq⟩ := h.parent_of_mem_descendants hb
        obtain rfl : p = q := Option.some.inj (hp.symm.trans hq)
        exact ih p (parent_lt hp) hpa hqb

/-- What is below a node stands apart from what the node stands apart from. -/
theorem Apart.of_mem_descendants (h : t.Linked) {a b n : Nat} (hab : t.Apart a b)
    (hn : n ∈ t.descendants b) : t.Apart a n where
  ne := fun he => hab.not_below (he ▸ hn)
  not_below := fun ha => hab.not_below (mem_descendants_trans hn ha)
  not_above := by
    intro hna
    rcases h.comparable (.inr hna) (.inr hn) with he | ha | hb
    · exact hab.ne he
    · exact hab.not_below ha
    · exact hab.not_above hb

/-- An edit that brings no element below another leaves elements apart. -/
theorem Apart.of_trims {a b : Nat} (h : t.Apart a b) (htrims : u.Trims t)
    (ha : ∃ e, u.element? a = some e) (hb : ∃ e, u.element? b = some e) : u.Apart a b := by
  obtain ⟨e, ha⟩ := ha
  obtain ⟨e', hb⟩ := hb
  exact ⟨h.ne, fun hm => h.not_below (htrims.below hm ha),
    fun hm => h.not_above (htrims.below hm hb)⟩

/-! ## Edits that commute -/

/-- A tree is told by the kind, the parent and the children of each node. -/
theorem eq_of_links (hsize : t.size = u.size) (hkind : ∀ i, t.kind i = u.kind i)
    (hparent : ∀ i, t.parent i = u.parent i) (hchildren : ∀ i, t.children i = u.children i) :
    t = u := by
  have hnode : ∀ i, t.node i = u.node i := by
    intro i
    show Node.mk (t.kind i) (t.parent i) (t.children i) = ⟨u.kind i, u.parent i, u.children i⟩
    rw [hkind, hparent, hchildren]
  have hnodes : t.nodes = u.nodes := by
    refine Array.ext hsize fun i hi hi' => ?_
    have hi := hnode i
    rwa [node, node, Array.getElem?_eq_getElem, Array.getElem?_eq_getElem] at hi
  cases t
  cases u
  cases hnodes
  rfl

/-- A node may be unlinked before or after another is given a text for what it holds, unless that
takes the node away. -/
theorem Linked.setText_detach (h : t.Linked) {id n : Nat} (hid : id < t.size) (hn : n < t.size)
    (hnot : n ∉ t.children id) (body : String) :
    (t.detach n).1.setText id body = ((t.setText id body).detach n).1 := by
  have hid' : id < (t.detach n).1.size := by rwa [size_detach]
  have hparent : (t.setText id body).parent n = t.parent n := by
    rw [parent_setText hid, if_neg (Nat.ne_of_lt hn), if_neg hnot]
  cases hp : t.parent n with
  | none => rw [detach_eq_self hp, detach_eq_self (hparent.trans hp)]
  | some p =>
    have hchild := h.mem_children_iff.2 hp
    have hpid : p ≠ id := fun he => hnot (he ▸ hchild)
    have hpsize : p ≠ t.size := Nat.ne_of_lt (Nat.lt_trans (parent_lt hp) hn)
    apply eq_of_links
    · rw [size_setText hid', size_detach, size_detach, size_setText hid]
    · intro i
      rw [kind_setText hid', size_detach, kind_detach, kind_detach, kind_setText hid]
    · intro i
      rw [parent_setText hid', size_detach, children_detach hp, if_neg hpid.symm, parent_detach,
        parent_detach, parent_setText hid]
      by_cases hi : i = n
      · rw [if_pos hi, if_pos hi, hi, if_neg (Nat.ne_of_lt hn), if_neg hnot]
      · rw [if_neg hi, if_neg hi]
    · intro i
      rw [children_setText hid', size_detach, children_detach hp,
        children_detach (hparent.trans hp), children_setText hid]
      by_cases hi : i = p
      · rw [hi, if_neg hpid, if_neg hpid, if_neg hpsize, if_neg hpsize]
      · rw [if_neg hi, if_neg hi]

/-- A node may be unlinked before or after text is replaced below another that it is not below. -/
theorem Linked.replaceText_detach (h : t.Linked) {id n : Nat} (hnot : n ∉ t.descendants id)
    (pattern replacement : String) :
    ((t.detach n).1.replaceText id pattern replacement).1 =
      ((t.replaceText id pattern replacement).1.detach n).1 := by
  cases hp : t.parent n with
  | none =>
    have hparent : (t.replaceText id pattern replacement).1.parent n = none := by
      rw [parent_replaceText, hp]
    rw [detach_eq_self hp, detach_eq_self hparent]
  | some p =>
    have hparent : (t.replaceText id pattern replacement).1.parent n = some p := by
      rw [parent_replaceText, hp]
    have hbelow : (t.detach n).1.descendants id = t.descendants id := by
      refine descendants_congr fun i hi => ?_
      -- what has the node for a child is not there
      rw [children_detach hp, if_neg]
      rintro rfl
      exact hnot (mem_descendants_iff.2 ⟨i, hi, h.mem_children_iff.2 hp⟩)
    apply eq_of_links
    · rw [size_replaceText, size_detach, size_detach, size_replaceText]
    · intro i
      rw [(h.detach n).kind_replaceText, hbelow, kind_detach, kind_detach, h.kind_replaceText]
    · intro i
      rw [parent_replaceText, parent_detach, parent_detach, parent_replaceText]
    · intro i
      rw [children_replaceText, children_detach hp, children_detach hparent, children_replaceText]

end

end PageMend.Markup.Tree
