import Mathlib.Data.List.Nodup
import PageMend.Proofs.Markup.Forest
import PageMend.Proofs.Text.Replace

/-!
# Links of a tree

In a tree that came about by edits, a node is a child of another just when that is its parent, no
node is the same child twice, and nothing is above the root (`Tree.Linked`). Each edit keeps this,
so it holds in every tree that is reached from the empty one.

The first section says for each edit what becomes of the kind, the parent and the children of every
node. All later proofs about edits rest on these equations and open no edit.

Where the links are in order, a node stands once below another (`Linked.nodup_descendants`). So
replacing text reaches each text below a node once (`Linked.kind_replaceText`).
-/

namespace PageMend.Markup

/-- A kind in which text is replaced, if it is text. -/
def Kind.replaceEach (pattern replacement : String) : Kind → Kind
  | .text body => .text (body.replaceEach pattern replacement)
  | k => k

theorem Kind.replaceEach_empty (replacement : String) (k : Kind) :
    k.replaceEach "" replacement = k := by
  cases k with
  | text body => rw [Kind.replaceEach, String.replaceEach_empty]
  | _ => rfl

theorem Kind.replaceEach_of_not_hasInfix {pattern : String} (replacement : String) {k : Kind}
    (h : k.text?.any (·.hasInfix pattern) = false) : k.replaceEach pattern replacement = k := by
  cases k with
  | text body => rw [Kind.replaceEach, String.replaceEach_of_not_hasInfix replacement h]
  | _ => rfl

namespace Tree

/-! ## What an edit does to the nodes -/

section
variable (t : Tree)

theorem node_eq_default {t : Tree} {i : Nat} (h : t.size ≤ i) : t.node i = ⟨.root, none, []⟩ := by
  unfold node
  rw [Array.getElem?_eq_none h]
  rfl

theorem node_update (id : Nat) (f : Node → Node) (loosens : ∀ n, Loosens n (f n)) (i : Nat) :
    (t.update id f loosens).node i = if i = id ∧ i < t.size then f (t.node i) else t.node i := by
  unfold node update
  rw [Array.getElem?_modify]
  by_cases hid : i = id
  · subst hid
    by_cases hi : i < t.size
    · have hin : t.nodes[i]? = some t.nodes[i] := Array.getElem?_eq_getElem hi
      rw [if_pos rfl, if_pos ⟨rfl, hi⟩, hin]
      rfl
    · have hout : t.nodes[i]? = none := Array.getElem?_eq_none (Nat.le_of_not_lt hi)
      rw [if_pos rfl, if_neg (fun h => hi h.2), hout]
      rfl
  · rw [if_neg (Ne.symm hid), if_neg (fun h => hid h.1)]

@[simp] theorem size_orphan (id : Nat) : (t.orphan id).size = t.size := size_update ..

@[simp] theorem kind_orphan (id i : Nat) : (t.orphan id).kind i = t.kind i := by
  simp only [orphan, kind, node_update]
  split <;> rfl

@[simp] theorem children_orphan (id i : Nat) : (t.orphan id).children i = t.children i := by
  simp only [orphan, children, node_update]
  split <;> rfl

theorem parent_orphan (id i : Nat) :
    (t.orphan id).parent i = if i = id then none else t.parent i := by
  simp only [orphan, parent, node_update]
  by_cases hid : i = id
  · rw [if_pos hid]
    split
    · rfl
    · rename_i hi
      rw [node_eq_default (Nat.le_of_not_lt fun h => hi ⟨hid, h⟩)]
  · rw [if_neg hid, if_neg (fun h => hid h.1)]

@[simp] theorem size_filterChildren (id : Nat) (keep : Nat → Bool) :
    (t.filterChildren id keep).size = t.size := size_update ..

@[simp] theorem kind_filterChildren (id : Nat) (keep : Nat → Bool) (i : Nat) :
    (t.filterChildren id keep).kind i = t.kind i := by
  simp only [filterChildren, kind, node_update]
  split <;> rfl

@[simp] theorem parent_filterChildren (id : Nat) (keep : Nat → Bool) (i : Nat) :
    (t.filterChildren id keep).parent i = t.parent i := by
  simp only [filterChildren, parent, node_update]
  split <;> rfl

theorem children_filterChildren (id : Nat) (keep : Nat → Bool) (i : Nat) :
    (t.filterChildren id keep).children i =
      if i = id then (t.children i).filter keep else t.children i := by
  simp only [filterChildren, children, node_update]
  by_cases hid : i = id
  · rw [if_pos hid]
    split
    · rfl
    · rename_i hi
      rw [node_eq_default (Nat.le_of_not_lt fun h => hi ⟨hid, h⟩)]
      rfl
  · rw [if_neg hid, if_neg (fun h => hid h.1)]

/-! ### Replacing text -/

section
variable (pattern replacement : String)

@[simp] theorem size_replaceHere (id : Nat) :
    (t.replaceHere pattern replacement id).size = t.size := size_update ..

@[simp] theorem parent_replaceHere (id i : Nat) :
    (t.replaceHere pattern replacement id).parent i = t.parent i := by
  simp only [replaceHere, parent, node_update]
  split
  · split <;> rfl
  · rfl

@[simp] theorem children_replaceHere (id i : Nat) :
    (t.replaceHere pattern replacement id).children i = t.children i := by
  simp only [replaceHere, children, node_update]
  split
  · split <;> rfl
  · rfl

theorem kind_replaceHere (id i : Nat) :
    (t.replaceHere pattern replacement id).kind i =
      if i = id then (t.kind i).replaceEach pattern replacement else t.kind i := by
  simp only [replaceHere, kind, node_update]
  by_cases hid : i = id
  · rw [if_pos hid]
    split
    · cases h : (t.node i).kind <;> simp [Kind.replaceEach, h]
    · rename_i hi
      rw [node_eq_default (Nat.le_of_not_lt fun h => hi ⟨hid, h⟩)]
      rfl
  · rw [if_neg hid, if_neg (fun h => hid h.1)]

/-- The nodes in which text is replaced below a node. -/
def hits (id : Nat) : List Nat :=
  (id :: t.descendants id).filter fun n => (t.text? n).any (·.hasInfix pattern)

theorem replaceText_eq {pattern : String} (h : pattern ≠ "") (id : Nat) :
    t.replaceText id pattern replacement =
      ((t.hits pattern id).foldl (fun t n => t.replaceHere pattern replacement n) t,
        !(t.hits pattern id).isEmpty) := if_neg h

/-- What one replacement keeps, all of them keep. -/
theorem replaceText_induction {P : Tree → Prop} {id : Nat} (start : P t)
    (step : ∀ u n, n ∈ t.hits pattern id → P u → P (u.replaceHere pattern replacement n)) :
    P (t.replaceText id pattern replacement).1 := by
  by_cases hp : pattern = ""
  · rw [replaceText, if_pos hp]
    exact start
  · rw [replaceText_eq t replacement hp]
    have hall : ∀ ns ⊆ t.hits pattern id, ∀ u, P u →
        P (ns.foldl (fun t n => t.replaceHere pattern replacement n) u) := by
      intro ns
      induction ns with
      | nil => exact fun _ _ hu => hu
      | cons n ns ih =>
        intro hsub u hu
        obtain ⟨hn, hns⟩ := List.cons_subset.1 hsub
        exact ih hns _ (step u n hn hu)
    exact hall _ (List.Subset.refl _) t start

@[simp] theorem size_replaceText (id : Nat) :
    (t.replaceText id pattern replacement).1.size = t.size :=
  replaceText_induction (P := fun u => u.size = t.size) t pattern replacement rfl
    fun u n _ h => (size_replaceHere u pattern replacement n).trans h

@[simp] theorem parent_replaceText (id i : Nat) :
    (t.replaceText id pattern replacement).1.parent i = t.parent i :=
  replaceText_induction (P := fun u => u.parent i = t.parent i) t pattern replacement rfl
    fun u n _ h => (parent_replaceHere u pattern replacement n i).trans h

@[simp] theorem children_replaceText (id i : Nat) :
    (t.replaceText id pattern replacement).1.children i = t.children i :=
  replaceText_induction (P := fun u => u.children i = t.children i) t pattern replacement rfl
    fun u n _ h => (children_replaceHere u pattern replacement n i).trans h

end

/-! ### Replacing the children of a node -/

@[simp] theorem size_foldl_orphan (ids : List Nat) : (ids.foldl orphan t).size = t.size := by
  induction ids generalizing t with
  | nil => rfl
  | cons id ids ih => rw [List.foldl_cons, ih, size_orphan]

@[simp] theorem kind_foldl_orphan (ids : List Nat) (i : Nat) :
    (ids.foldl orphan t).kind i = t.kind i := by
  induction ids generalizing t with
  | nil => rfl
  | cons id ids ih => rw [List.foldl_cons, ih, kind_orphan]

@[simp] theorem children_foldl_orphan (ids : List Nat) (i : Nat) :
    (ids.foldl orphan t).children i = t.children i := by
  induction ids generalizing t with
  | nil => rfl
  | cons id ids ih => rw [List.foldl_cons, ih, children_orphan]

theorem parent_foldl_orphan (ids : List Nat) (i : Nat) :
    (ids.foldl orphan t).parent i = if i ∈ ids then none else t.parent i := by
  induction ids generalizing t with
  | nil => rfl
  | cons id ids ih =>
    rw [List.foldl_cons, ih, parent_orphan]
    by_cases hi : i ∈ ids
    · rw [if_pos hi, if_pos (List.mem_cons_of_mem id hi)]
    · by_cases hid : i = id
      · rw [if_neg hi, if_pos hid, if_pos (List.mem_cons.2 (.inl hid))]
      · have hnot : i ∉ id :: ids := fun h => (List.mem_cons.1 h).elim hid hi
        rw [if_neg hi, if_neg hid, if_neg hnot]

/-- The tree without the children of a node. -/
def emptied (id : Nat) : Tree :=
  ((t.children id).foldl orphan t).filterChildren id fun _ => false

theorem setText_eq (id : Nat) (body : String) :
    t.setText id body = (t.emptied id).appendChild id (.text body) := rfl

@[simp] theorem size_emptied (id : Nat) : (t.emptied id).size = t.size := by
  simp [emptied]

@[simp] theorem kind_emptied (id i : Nat) : (t.emptied id).kind i = t.kind i := by
  simp [emptied]

theorem parent_emptied (id i : Nat) :
    (t.emptied id).parent i = if i ∈ t.children id then none else t.parent i := by
  rw [emptied, parent_filterChildren, parent_foldl_orphan]

theorem children_emptied (id i : Nat) :
    (t.emptied id).children i = if i = id then [] else t.children i := by
  rw [emptied, children_filterChildren, children_foldl_orphan]
  split
  · simp
  · rfl

section
variable {t : Tree} {id : Nat} (hid : id < t.size) (body : String)
include hid

theorem kind_setText (i : Nat) :
    (t.setText id body).kind i = if i = t.size then .text body else t.kind i := by
  rw [setText_eq, kind_appendChild (by rwa [size_emptied]), size_emptied, kind_emptied]

theorem size_setText : (t.setText id body).size = t.size + 1 := by
  rw [setText_eq, size_appendChild _ (by rwa [size_emptied]), size_emptied]

theorem parent_setText (i : Nat) :
    (t.setText id body).parent i =
      if i = t.size then some id else if i ∈ t.children id then none else t.parent i := by
  rw [setText_eq, parent_appendChild (by rwa [size_emptied]), size_emptied, parent_emptied]

theorem children_setText (i : Nat) :
    (t.setText id body).children i =
      if i = id then [t.size] else if i = t.size then [] else t.children i := by
  rw [setText_eq, children_appendChild (by rwa [size_emptied]), size_emptied, children_emptied]
  by_cases hi : i = id
  · rw [if_pos hi, if_pos hi, if_pos hi]
    rfl
  · rw [if_neg hi, if_neg hi, if_neg hi]

end

/-! ### Unlinking a node -/

theorem detach_eq {t : Tree} {id p : Nat} (h : t.parent id = some p) :
    t.detach id = ((t.orphan id).filterChildren p (· ≠ id), true) := by
  simp only [detach, h]

theorem detach_eq_self {t : Tree} {id : Nat} (h : t.parent id = none) :
    t.detach id = (t, false) := by
  simp only [detach, h]

@[simp] theorem size_detach (id : Nat) : (t.detach id).1.size = t.size := by
  unfold detach
  split <;> simp

@[simp] theorem kind_detach (id i : Nat) : (t.detach id).1.kind i = t.kind i := by
  unfold detach
  split <;> simp

theorem parent_detach (id i : Nat) :
    (t.detach id).1.parent i = if i = id then none else t.parent i := by
  cases hp : t.parent id with
  | none =>
    rw [detach_eq_self hp]
    by_cases hi : i = id
    · rw [if_pos hi, hi, hp]
    · rw [if_neg hi]
  | some p => rw [detach_eq hp, parent_filterChildren, parent_orphan]

theorem children_detach {t : Tree} {id p : Nat} (h : t.parent id = some p) (i : Nat) :
    (t.detach id).1.children i =
      if i = p then (t.children i).filter (· ≠ id) else t.children i := by
  rw [detach_eq h, children_filterChildren, children_orphan]

/-- Unlinking adds no child. -/
theorem children_detach_sublist (id i : Nat) :
    ((t.detach id).1.children i).Sublist (t.children i) := by
  cases hp : t.parent id with
  | none =>
    simp [detach_eq_self hp]
  | some p =>
    rw [children_detach hp]
    split
    · exact List.filter_sublist
    · exact List.Sublist.refl _

end

/-! ## Trees with their links in order -/

/-- The links of a tree agree with each other. -/
structure Linked (t : Tree) : Prop where
  mem_children_iff : ∀ {p c}, c ∈ t.children p ↔ t.parent c = some p
  nodup : ∀ p, (t.children p).Nodup
  root : t.parent Tree.root = none

theorem linked_empty : empty.Linked where
  mem_children_iff := by
    intro p c
    have hnode : ∀ i, empty.children i = [] ∧ empty.parent i = none := by
      intro i
      cases i <;> exact ⟨rfl, rfl⟩
    simp [(hnode p).1, (hnode c).2]
  nodup := by
    intro p
    cases p <;> exact List.nodup_nil
  root := rfl

section
variable {t : Tree}

/-- A node that is not there yet is no child. -/
theorem not_mem_children_of_size_le {i p : Nat} (hi : t.size ≤ i) : i ∉ t.children p := fun hm => by
  have := (lt_of_mem_children hm).2
  omega

/-- A child of the new tree was a child before, or is the new node. -/
theorem mem_children_appendChild {p : Nat} (hp : p < t.size) {k : Kind} {q c : Nat}
    (hc : c ∈ (t.appendChild p k).children q) : c ∈ t.children q ∨ q = p ∧ c = t.size := by
  rw [children_appendChild hp] at hc
  split at hc
  · rename_i hq
    rcases List.mem_append.1 hc with hc | hc
    · exact .inl hc
    · exact .inr ⟨hq, List.mem_singleton.1 hc⟩
  · split at hc
    · cases hc
    · exact .inl hc

theorem kind_appendChild_new {p : Nat} (hp : p < t.size) (k : Kind) :
    (t.appendChild p k).kind t.size = k := by
  rw [kind_appendChild hp, if_pos rfl]

theorem kind_appendChild_old {p : Nat} (hp : p < t.size) (k : Kind) {i : Nat} (hi : i < t.size) :
    (t.appendChild p k).kind i = t.kind i := by
  rw [kind_appendChild hp, if_neg (Nat.ne_of_lt hi)]

theorem Linked.appendChild (h : t.Linked) {p : Nat} (hp : p < t.size) (k : Kind) :
    (t.appendChild p k).Linked where
  mem_children_iff := by
    intro q c
    rw [children_appendChild hp, parent_appendChild hp]
    by_cases hc : c = t.size
    · have hnot : ∀ q, c ∉ t.children q := by
        intro q
        exact not_mem_children_of_size_le (Nat.le_of_eq hc.symm)
      rw [if_pos hc]
      split
      · rename_i hq
        simp [hc, hq]
      · rename_i hq
        have hne : ¬ some p = some q := fun e => hq (Option.some.inj e).symm
        split
        · simp [hne]
        · simp [hne, hnot q]
    · rw [if_neg hc, ← h.mem_children_iff]
      split
      · simp [hc]
      · split
        · rename_i hq
          rw [children_eq_nil (Nat.le_of_eq hq.symm)]
        · exact Iff.rfl
  nodup := by
    intro q
    rw [children_appendChild hp]
    split
    · have hnot : t.size ∉ t.children q := not_mem_children_of_size_le (Nat.le_refl _)
      apply List.nodup_append.2 ⟨h.nodup q, by simp, ?_⟩
      intro a ha b hb
      rw [List.mem_singleton.1 hb]
      rintro rfl
      exact hnot ha
    · split
      · exact List.nodup_nil
      · exact h.nodup q
  root := by
    have hne : Tree.root ≠ t.size := Nat.ne_of_lt (Nat.lt_of_le_of_lt (Nat.zero_le p) hp)
    rw [parent_appendChild hp, if_neg hne]
    exact h.root

theorem Linked.replaceHere (h : t.Linked) (id : Nat) (pattern replacement : String) :
    (t.replaceHere pattern replacement id).Linked where
  mem_children_iff := by
    intro p c
    simpa using h.mem_children_iff
  nodup := by simpa using h.nodup
  root := by simpa using h.root

theorem Linked.replaceText (h : t.Linked) (id : Nat) (pattern replacement : String) :
    (t.replaceText id pattern replacement).1.Linked :=
  replaceText_induction t pattern replacement h fun _ n _ hu => hu.replaceHere n _ _

theorem Linked.emptied (h : t.Linked) (id : Nat) : (t.emptied id).Linked where
  mem_children_iff := by
    intro q c
    rw [children_emptied, parent_emptied]
    by_cases hq : q = id
    · rw [if_pos hq, hq]
      split
      · simp
      · rename_i hc
        rw [← h.mem_children_iff]
        simp [hc]
    · rw [if_neg hq]
      split
      · rename_i hc
        rw [h.mem_children_iff, h.mem_children_iff.1 hc]
        simp [Ne.symm hq]
      · exact h.mem_children_iff
  nodup := by
    intro q
    rw [children_emptied]
    split
    · exact List.nodup_nil
    · exact h.nodup q
  root := by
    rw [parent_emptied]
    split
    · rfl
    · exact h.root

theorem Linked.setText (h : t.Linked) {id : Nat} (hid : id < t.size) (body : String) :
    (t.setText id body).Linked :=
  (h.emptied id).appendChild (by rwa [size_emptied]) _

theorem Linked.detach (h : t.Linked) (id : Nat) : (t.detach id).1.Linked := by
  cases hp : t.parent id with
  | none =>
    rw [detach_eq_self hp]
    exact h
  | some p =>
    constructor
    · intro q c
      rw [children_detach hp, parent_detach]
      by_cases hc : c = id
      · subst hc
        rw [if_pos rfl]
        split
        · simp
        · rename_i hq
          rw [h.mem_children_iff, hp]
          simp [Ne.symm hq]
      · rw [if_neg hc, ← h.mem_children_iff]
        split
        · simp [hc]
        · exact Iff.rfl
    · exact fun q => (h.nodup q).sublist (children_detach_sublist t id q)
    · rw [parent_detach]
      split
      · rfl
      · exact h.root

/-! ## Each node has one place -/

theorem Linked.parent_of_mem_descendants (h : t.Linked) {id n : Nat}
    (hn : n ∈ t.descendants id) :
    ∃ p, (p = id ∨ p ∈ t.descendants id) ∧ t.parent n = some p := by
  obtain ⟨p, hp, hnp⟩ := mem_descendants_iff.1 hn
  exact ⟨p, hp, h.mem_children_iff.1 hnp⟩

/-- A child of a node does not stand below another child of it. -/
theorem Linked.not_mem_descendants_of_siblings (h : t.Linked) {p a b : Nat}
    (ha : a ∈ t.children p) (hb : b ∈ t.children p) : a ∉ t.descendants b := by
  intro hab
  obtain ⟨q, hq, hparent⟩ := h.parent_of_mem_descendants hab
  obtain rfl : p = q := Option.some.inj ((h.mem_children_iff.1 ha).symm.trans hparent)
  have hlt := (lt_of_mem_children hb).1
  rcases hq with rfl | hq
  · exact Nat.lt_irrefl _ hlt
  · exact Nat.lt_asymm hlt (lt_of_mem_descendants hq).1

/-- What stands at or below two children of a node shows that they are the same. -/
theorem Linked.eq_of_siblings (h : t.Linked) {p a b n : Nat} (ha : a ∈ t.children p)
    (hb : b ∈ t.children p) (hna : n = a ∨ n ∈ t.descendants a)
    (hnb : n = b ∨ n ∈ t.descendants b) : a = b := by
  induction n using Nat.strongRecOn with
  | ind n ih =>
    rcases hna with rfl | hna
    · exact hnb.resolve_right (h.not_mem_descendants_of_siblings ha hb)
    · rcases hnb with rfl | hnb
      · exact absurd hna (h.not_mem_descendants_of_siblings hb ha)
      · -- its parent stands at or below both
        obtain ⟨q, hqa, hq⟩ := h.parent_of_mem_descendants hna
        obtain ⟨q', hqb, hq'⟩ := h.parent_of_mem_descendants hnb
        obtain rfl : q = q' := Option.some.inj (hq.symm.trans hq')
        exact ih q (parent_lt hq) hqa hqb

/-- A node stands once at or below another. -/
theorem Linked.nodup_descendants (h : t.Linked) (id : Nat) : (id :: t.descendants id).Nodup := by
  induction id using induction_children (t := t) with
  | step id ih =>
    refine List.nodup_cons.2 ⟨fun hid => Nat.lt_irrefl _ (lt_of_mem_descendants hid).1, ?_⟩
    rw [descendants_eq, List.nodup_flatMap]
    refine ⟨ih, (h.nodup id).imp_of_mem ?_⟩
    intro a b ha hb hne n hna hnb
    exact hne (h.eq_of_siblings ha hb (List.mem_cons.1 hna) (List.mem_cons.1 hnb))

/-! ## What is below a node after an edit -/

/-- Where the nodes at and below a node have the same children, the same nodes are below it. -/
theorem descendants_congr {t u : Tree} {id : Nat}
    (h : ∀ i, i = id ∨ i ∈ t.descendants id → u.children i = t.children i) :
    u.descendants id = t.descendants id := by
  induction id using induction_children (t := t) with
  | step id ih =>
    rw [descendants_eq, descendants_eq t, h id (.inl rfl)]
    refine List.flatMap_congr fun c hc => ?_
    have hmem := mem_descendants_of_mem_children hc
    rw [ih c hc fun i hi => h i (.inr (hi.elim (fun he => he ▸ hmem) (mem_descendants_trans hmem)))]

/-- Replacing a pattern in texts leaves each node where it is. -/
theorem descendants_replaceText (t : Tree) (id : Nat) (pattern replacement : String) (i : Nat) :
    (t.replaceText id pattern replacement).1.descendants i = t.descendants i :=
  descendants_congr fun _ _ => children_replaceText ..

/-- Behind a replacement, the new text is all that is below the node. -/
theorem descendants_setText {t : Tree} {id : Nat} (hid : id < t.size) (body : String) :
    (t.setText id body).descendants id = [t.size] := by
  rw [descendants_eq, children_setText hid, if_pos rfl, List.flatMap_singleton, descendants_eq,
    children_setText hid, if_neg (Nat.ne_of_gt hid), if_pos rfl]
  rfl

/-! ## What replacing text does to the nodes -/

theorem kind_foldl_replaceHere (t : Tree) (pattern replacement : String) {ns : List Nat}
    (h : ns.Nodup) (i : Nat) :
    (ns.foldl (fun t n => t.replaceHere pattern replacement n) t).kind i =
      if i ∈ ns then (t.kind i).replaceEach pattern replacement else t.kind i := by
  induction ns generalizing t with
  | nil => rfl
  | cons n ns ih =>
    obtain ⟨hn, hns⟩ := List.nodup_cons.1 h
    rw [List.foldl_cons, ih _ hns, kind_replaceHere]
    by_cases hi : i = n
    · subst hi
      rw [if_neg hn, if_pos rfl, if_pos List.mem_cons_self]
    · rw [if_neg hi]
      by_cases hmem : i ∈ ns
      · rw [if_pos hmem, if_pos (List.mem_cons_of_mem n hmem)]
      · have hnot : i ∉ n :: ns := fun h => (List.mem_cons.1 h).elim hi hmem
        rw [if_neg hmem, if_neg hnot]

/-- The pattern is replaced in each text at and below the node, and nowhere else. -/
theorem Linked.kind_replaceText (h : t.Linked) (id : Nat) (pattern replacement : String) (i : Nat) :
    (t.replaceText id pattern replacement).1.kind i =
      if i ∈ id :: t.descendants id then (t.kind i).replaceEach pattern replacement
      else t.kind i := by
  by_cases hp : pattern = ""
  · subst hp
    rw [Kind.replaceEach_empty, ite_self]
    rfl
  · have hnodup : (t.hits pattern id).Nodup := (h.nodup_descendants id).filter _
    rw [replaceText_eq t replacement hp]
    show ((t.hits pattern id).foldl _ t).kind i = _
    rw [kind_foldl_replaceHere t pattern replacement hnodup]
    by_cases hi : i ∈ id :: t.descendants id
    · rw [if_pos hi]
      split
      · rfl
      · -- a text without the pattern is passed over
        rename_i hhit
        apply (Kind.replaceEach_of_not_hasInfix replacement _).symm
        exact Bool.eq_false_iff.2 fun hany => hhit (List.mem_filter.2 ⟨hi, hany⟩)
    · have hnot : i ∉ t.hits pattern id := fun hhit => hi (List.mem_filter.1 hhit).1
      rw [if_neg hi, if_neg hnot]

end

/-! ## Above a node -/

theorem ancestors_eq (t : Tree) (n : Nat) :
    t.ancestors n = (t.parent n).elim [] fun p => p :: t.ancestors p := by
  rw [ancestors]
  split
  · rename_i hp
    rw [hp]
    rfl
  · rename_i p hp
    rw [hp]
    rfl

theorem mem_ancestors_iff {t : Tree} {n a : Nat} :
    a ∈ t.ancestors n ↔ ∃ p, t.parent n = some p ∧ (a = p ∨ a ∈ t.ancestors p) := by
  rw [ancestors_eq]
  cases t.parent n <;> simp

theorem lt_of_mem_ancestors {t : Tree} {n a : Nat} (ha : a ∈ t.ancestors n) : a < n := by
  induction n using Nat.strongRecOn with
  | ind n ih =>
    obtain ⟨p, hp, ha⟩ := mem_ancestors_iff.1 ha
    rcases ha with rfl | ha
    · exact parent_lt hp
    · exact Nat.lt_trans (ih p (parent_lt hp) ha) (parent_lt hp)

/-- What stands above a node on the page is on the page. -/
theorem Linked.mem_of_mem_ancestors {t : Tree} (h : t.Linked) {n a : Nat}
    (hn : n ∈ t.descendants Tree.root) (ha : a ∈ t.ancestors n) :
    a = Tree.root ∨ a ∈ t.descendants Tree.root := by
  induction n using Nat.strongRecOn with
  | ind n ih =>
    obtain ⟨p, hp, ha⟩ := mem_ancestors_iff.1 ha
    obtain ⟨q, hq, hnq⟩ := mem_descendants_iff.1 hn
    obtain rfl : q = p := Option.some.inj ((h.mem_children_iff.1 hnq).symm.trans hp)
    rcases hq with rfl | hq
    · rcases ha with rfl | ha
      · exact .inl rfl
      · obtain ⟨r, hr, -⟩ := mem_ancestors_iff.1 ha
        rw [h.root] at hr
        cases hr
    · rcases ha with rfl | ha
      · exact .inr hq
      · exact ih q (parent_lt hp) hq ha

/-- A node is below what stands above it. -/
theorem Linked.mem_descendants_of_mem_ancestors {t : Tree} (h : t.Linked) {n a : Nat}
    (ha : a ∈ t.ancestors n) : n ∈ t.descendants a := by
  induction n using Nat.strongRecOn with
  | ind n ih =>
    obtain ⟨p, hp, ha⟩ := mem_ancestors_iff.1 ha
    have hchild := h.mem_children_iff.2 hp
    rcases ha with rfl | ha
    · exact mem_descendants_of_mem_children hchild
    · exact mem_descendants_iff.2 ⟨p, .inr (ih p (parent_lt hp) ha), hchild⟩

/-- A node is below what stands above it, and below nothing else. -/
theorem Linked.mem_ancestors_iff_mem_descendants {t : Tree} (h : t.Linked) {n a : Nat} :
    a ∈ t.ancestors n ↔ n ∈ t.descendants a := by
  refine ⟨h.mem_descendants_of_mem_ancestors, fun hn => ?_⟩
  induction n using Nat.strongRecOn with
  | ind n ih =>
    obtain ⟨p, hp, hnp⟩ := h.parent_of_mem_descendants hn
    refine mem_ancestors_iff.2 ⟨p, hnp, ?_⟩
    exact hp.imp Eq.symm fun hp => ih p (parent_lt hnp) hp

theorem ancestors_eq_cons {t : Tree} {n a : Nat} {back : List Nat} (h : t.ancestors n = a :: back) :
    back = t.ancestors a := by
  rw [ancestors_eq] at h
  cases hp : t.parent n with
  | none => rw [hp] at h; cases h
  | some p =>
    rw [hp] at h
    obtain ⟨rfl, rfl⟩ := List.cons_eq_cons.1 h
    rfl

/-- Behind a node that stands above another comes what stands above that node itself. -/
theorem ancestors_split {t : Tree} {n a : Nat} {front back : List Nat}
    (h : t.ancestors n = front ++ a :: back) : back = t.ancestors a := by
  induction front generalizing n with
  | nil => exact ancestors_eq_cons h
  | cons b front ih => exact ih (ancestors_eq_cons h).symm

end Tree

end PageMend.Markup
