import PageMend.Proofs.Markup.Proper
import PageMend.Proofs.Markup.Reload

/-!
# What is written around an edit

An edit at one place of a page shows at one place of the text. `Tree.Patch` says that two trees are
the same but for what stands in the place of one node; then what is read off their rows is the same
around it (`Linked.exists_pieces`), and they are written the same around it, if what stands above it
has an end tag (`Linked.exists_around`). So unlinking a node takes one piece out of the text
(`Linked.exists_detach`), and replacing what a node holds by a text replaces one piece
(`Shaped.exists_setText`).

The number of bytes that a page takes is told from this: it is what the pieces take, less or more
(`Shaped.byteLength_detach`, `Shaped.byteLength_setText`). Taking a pattern out of texts adds no
bytes (`Linked.byteLength_replaceText_le`).
-/

namespace PageMend.Markup

/-! ## Bytes of a text -/

theorem byteLength_le_of_sublist {xs ys : List Char} (h : xs.Sublist ys) :
    byteLength xs ≤ byteLength ys := by
  induction h with
  | slnil => exact Nat.le_refl _
  | cons c _ ih => exact Nat.le_trans ih (Nat.le_add_left _ _)
  | cons_cons c _ ih => exact Nat.add_le_add_left ih _

/-- A pattern that is taken out of a text in which it stands takes its bytes with it. -/
theorem byteLength_replaceAll_le {pattern text : List Char} (hne : pattern ≠ [])
    (h : Text.occursIn pattern text = true) :
    byteLength (Text.replaceAll pattern [] text) + byteLength pattern ≤ byteLength text := by
  fun_induction Text.replaceAll pattern [] text with
  | case1 =>
    rw [Text.occursIn, List.isEmpty_iff] at h
    exact absurd h hne
  | case2 c cs hhit _ =>
    obtain ⟨rest, hrest⟩ := List.isPrefixOf_iff_prefix.1 hhit.2
    have hle := byteLength_le_of_sublist (Text.replaceAll_sublist pattern rest)
    rw [← hrest, List.drop_left, List.nil_append, byteLength_append]
    omega
  | case3 c cs hmiss ih =>
    have hhead : pattern.isPrefixOf (c :: cs) = false :=
      Bool.eq_false_iff.2 fun hp => hmiss ⟨hne, hp⟩
    rw [Text.occursIn, hhead, Bool.false_or] at h
    have hle := ih h
    simp only [byteLength_cons]
    omega

theorem byteLength_replaceEach_le {text pattern : String} (hne : pattern ≠ "")
    (h : text.hasInfix pattern = true) :
    byteLength (text.replaceEach pattern "").toList + byteLength pattern.toList ≤
      byteLength text.toList := by
  rw [String.toList_replaceEach_empty]
  exact byteLength_replaceAll_le (mt String.toList_eq_nil_iff.1 hne) h

theorem byteLength_le_of_hasInfix {text pattern : String} (h : text.hasInfix pattern = true) :
    byteLength pattern.toList ≤ byteLength text.toList :=
  byteLength_le_of_sublist (Text.occursIn_iff.1 h).sublist

/-- A node that may have content is written around it, whatever it is. -/
theorem Kind.exists_spelling {k : Kind} (hl : k.isLeaf = false) :
    ∃ front back, ∀ childless content, k.spelling childless content = front ++ content ++ back := by
  cases k with
  | root => exact ⟨[], [], fun _ content => (List.append_nil content).symm⟩
  | element e => exact ⟨_, _, fun childless content => e.spelling_of_isLeaf hl childless content⟩
  | text body => cases hl
  | markup s => cases hl

/-- A node in which a pattern is taken out takes no more bytes, around content that does not. -/
theorem Kind.byteLength_replaceEach_le (pattern : String) (k : Kind) (childless : Bool)
    {xs ys : List Char} (h : byteLength xs ≤ byteLength ys) :
    byteLength ((k.replaceEach pattern "").spelling childless xs) ≤
      byteLength (k.spelling childless ys) := by
  cases k with
  | root => exact h
  | element e =>
    show byteLength (e.spelling childless xs) ≤ byteLength (e.spelling childless ys)
    unfold Element.spelling
    split
    · exact Nat.le_refl _
    · split
      · exact Nat.le_refl _
      · simp only [byteLength_append]
        omega
  | text body =>
    show byteLength (body.replaceEach pattern "").toList ≤ byteLength body.toList
    rw [String.toList_replaceEach_empty]
    exact byteLength_le_of_sublist (Text.replaceAll_sublist _ _)
  | markup s => exact Nat.le_refl _

namespace Tree

/-! ## One place of a tree -/

/-- A row with the nodes `ids` in the place of one. -/
def exchange (id : Nat) (ids cs : List Nat) : List Nat :=
  cs.flatMap fun c => if c = id then ids else [c]

theorem exchange_of_not_mem {id : Nat} (ids : List Nat) {cs : List Nat} (h : id ∉ cs) :
    exchange id ids cs = cs := by
  have hsame : ∀ c ∈ cs, (if c = id then ids else [c]) = [c] := by
    intro c hc
    exact if_neg (ne_of_mem_of_not_mem hc h)
  rw [exchange, List.flatMap_congr hsame, List.flatMap_singleton']

theorem exchange_self (id : Nat) (cs : List Nat) : exchange id [id] cs = cs := by
  have hsame : ∀ c ∈ cs, (if c = id then [id] else [c]) = [c] := by
    intro c _
    split
    · rename_i hc
      rw [hc]
    · rfl
  rw [exchange, List.flatMap_congr hsame, List.flatMap_singleton']

theorem exchange_nil (id : Nat) (cs : List Nat) : exchange id [] cs = cs.filter (· ≠ id) := by
  induction cs with
  | nil => rfl
  | cons c cs ih =>
    rw [List.filter_cons, ← ih, exchange, List.flatMap_cons]
    by_cases hc : c = id <;> simp [exchange, hc]

/-- The row around one node. -/
theorem exchange_split (id : Nat) (ids left : List Nat) (c : Nat) (right : List Nat) :
    exchange id ids (left ++ c :: right) =
      exchange id ids left ++ ((if c = id then ids else [c]) ++ exchange id ids right) := by
  rw [exchange, List.flatMap_append, List.flatMap_cons]
  rfl

/-- Two trees that are the same but for what stands in the place of a node: in the second these are
the nodes `ids`. -/
structure Patch (t u : Tree) (id : Nat) (ids : List Nat) : Prop where
  kind : ∀ {p}, p < t.size → p ∉ id :: t.descendants id → u.kind p = t.kind p
  children : ∀ {p}, p < t.size → p ∉ id :: t.descendants id →
    u.children p = exchange id ids (t.children p)

section
variable {t u : Tree} {id : Nat} {ids : List Nat}

theorem patch_refl (t : Tree) (id : Nat) : t.Patch t id [id] where
  kind _ _ := rfl
  children _ _ := (exchange_self id _).symm

theorem rowForest_append (t : Tree) (cs ds : List Nat) :
    t.rowForest (cs ++ ds) = t.rowForest cs ++ t.rowForest ds := by
  rw [rowForest, Forest.row_append, Forest.map_append]
  rfl

theorem spelling_rowForest_singleton (t : Tree) (id : Nat) :
    (t.rowForest [id]).spelling = (t.write id).toList := by
  rw [rowForest_cons, Forest.spelling_node, toList_write, rowForest_nil, Forest.spelling_nil,
    List.append_nil]

theorem rowForest_congr {cs : List Nat}
    (h : ∀ c ∈ cs, u.kind c = t.kind c ∧ u.forest c = t.forest c) :
    u.rowForest cs = t.rowForest cs := by
  induction cs with
  | nil => rfl
  | cons c cs ih =>
    obtain ⟨⟨hkind, hforest⟩, hcs⟩ := List.forall_mem_cons.1 h
    rw [rowForest_cons, rowForest_cons, hkind, hforest, ih hcs]

/-- A node that is apart from the place holds what it held. -/
theorem Patch.forest_eq (h : t.Patch u id ids) {c : Nat} (hc : c < t.size)
    (hapart : ∀ n ∈ c :: t.descendants c, n ∉ id :: t.descendants id) :
    u.forest c = t.forest c := by
  induction c using induction_children (t := t) with
  | step c ih =>
    obtain ⟨hself, hbelow⟩ := List.forall_mem_cons.1 hapart
    have hchild : ∀ d ∈ t.children c, ∀ n ∈ d :: t.descendants d, n ∉ id :: t.descendants id := by
      intro d hd n hn
      refine hbelow n ?_
      rw [descendants_eq]
      exact List.mem_flatMap.2 ⟨d, hd, hn⟩
    have hid : id ∉ t.children c := fun hm =>
      hbelow id (mem_descendants_of_mem_children hm) List.mem_cons_self
    rw [Tree.forest_eq, h.children hc hself, exchange_of_not_mem ids hid, Tree.forest_eq]
    refine rowForest_congr fun d hd => ?_
    have hlt := (lt_of_mem_children hd).2
    exact ⟨h.kind hlt (hchild d hd d List.mem_cons_self), ih d hd hlt (hchild d hd)⟩

/-- Nodes in a row that are apart from the place stand as they stood. -/
theorem Patch.rowForest_eq (h : t.Patch u id ids) {cs : List Nat} (hlt : ∀ c ∈ cs, c < t.size)
    (hapart : ∀ c ∈ cs, ∀ n ∈ c :: t.descendants c, n ∉ id :: t.descendants id) :
    u.rowForest (exchange id ids cs) = t.rowForest cs := by
  have hid : id ∉ cs := fun hm => hapart id hm id List.mem_cons_self List.mem_cons_self
  rw [exchange_of_not_mem ids hid]
  refine rowForest_congr fun c hc => ?_
  exact ⟨h.kind (hlt c hc) (hapart c hc c List.mem_cons_self), h.forest_eq (hlt c hc) (hapart c hc)⟩

theorem not_mem_of_mem_descendants {a : Nat} (h : id ∈ t.descendants a) :
    a ∉ id :: t.descendants id := by
  have hlt := (lt_of_mem_descendants h).1
  intro hm
  rcases List.mem_cons.1 hm with rfl | hm
  · exact Nat.lt_irrefl _ hlt
  · exact Nat.lt_asymm hlt (lt_of_mem_descendants hm).1

/-- Of the children of a node, one is the way to a node below it. The others are apart from that. -/
theorem Linked.exists_way (h : t.Linked) {a : Nat} (hid : id ∈ t.descendants a) :
    ∃ left c right, t.children a = left ++ c :: right ∧ (c = id ∨ id ∈ t.descendants c) ∧
      ∀ d ∈ left ++ right, ∀ n ∈ d :: t.descendants d, n ∉ id :: t.descendants id := by
  obtain ⟨c, hc, hidc⟩ : ∃ c ∈ t.children a, id ∈ c :: t.descendants c := by
    rw [descendants_eq] at hid
    exact List.mem_flatMap.1 hid
  obtain ⟨left, right, hsplit⟩ := List.append_of_mem hc
  refine ⟨left, c, right, hsplit, (List.mem_cons.1 hidc).imp_left Eq.symm, ?_⟩
  have hnodup := h.nodup a
  rw [hsplit, List.nodup_middle, List.nodup_cons] at hnodup
  intro d hd n hn hnid
  have hda : d ∈ t.children a := by
    rw [hsplit]
    exact List.mem_append.2 ((List.mem_append.1 hd).imp_right (List.mem_cons_of_mem c))
  have hnc : n = c ∨ n ∈ t.descendants c := by
    rcases List.mem_cons.1 hnid with rfl | hnid
    · exact List.mem_cons.1 hidc
    · rcases List.mem_cons.1 hidc with rfl | hidc
      · exact .inr hnid
      · exact .inr (mem_descendants_trans hidc hnid)
  obtain rfl := h.eq_of_siblings hda hc (List.mem_cons.1 hn) hnc
  exact hnodup.1 hd

/-- What is read off the rows of a tree. It is put together from the parts of a row; apart from the
place it does not change; and of a node above the place it is read around what is read below it. -/
structure Rowwise {β : Type} (t : Tree) (id : Nat) (row : Tree → List Nat → List β) : Prop where
  append : ∀ u cs ds, row u (cs ++ ds) = row u cs ++ row u ds
  apart : ∀ {u ids}, t.Patch u id ids → ∀ {cs}, (∀ c ∈ cs, c < t.size) →
    (∀ c ∈ cs, ∀ n ∈ c :: t.descendants c, n ∉ id :: t.descendants id) →
      row u (exchange id ids cs) = row t cs
  above : ∀ {c}, id ∈ t.descendants c → ∃ front back, ∀ {u ids}, t.Patch u id ids →
    row u [c] = front ++ row u (u.children c) ++ back

/-- Around one place of a tree, the same is read off all trees that are the same but for this
place. -/
theorem Linked.exists_pieces {β : Type} {row : Tree → List Nat → List β} (h : t.Linked)
    (hrow : t.Rowwise id row) {a : Nat} (hid : id ∈ t.descendants a) :
    ∃ before after, ∀ {u ids}, t.Patch u id ids →
      row u (u.children a) = before ++ row u ids ++ after := by
  induction a using induction_children (t := t) with
  | step a ih =>
    obtain ⟨left, c, right, hsplit, hway, hapart⟩ := h.exists_way hid
    have hchild : ∀ d ∈ left ++ c :: right, d < t.size := by
      intro d hd
      rw [← hsplit] at hd
      exact (lt_of_mem_children hd).2
    have hc : c ∈ t.children a := by
      rw [hsplit]
      exact List.mem_append_right _ List.mem_cons_self
    -- what is read of the child on the way
    obtain ⟨front, back, hmid⟩ : ∃ front back, ∀ {u ids}, t.Patch u id ids →
        row u (if c = id then ids else [c]) = front ++ row u ids ++ back := by
      by_cases hcid : c = id
      · refine ⟨[], [], fun _ => ?_⟩
        rw [if_pos hcid, List.nil_append, List.append_nil]
      · have hidc : id ∈ t.descendants c := hway.resolve_left hcid
        obtain ⟨before, after, hbelow⟩ := ih c hc hidc
        obtain ⟨front, back, hself⟩ := hrow.above hidc
        refine ⟨front ++ before, after ++ back, fun {u ids} hu => ?_⟩
        rw [if_neg hcid, hself hu, hbelow hu]
        simp only [List.append_assoc]
    refine ⟨row t left ++ front, back ++ row t right, fun {u ids} hu => ?_⟩
    have hleft := hrow.apart hu (fun d hd => hchild d (List.mem_append_left _ hd))
      fun d hd => hapart d (List.mem_append_left _ hd)
    have hright := hrow.apart hu
      (fun d hd => hchild d (List.mem_append_right _ (List.mem_cons_of_mem c hd)))
      fun d hd => hapart d (List.mem_append_right _ hd)
    have ha : a < t.size := Nat.lt_trans (lt_of_mem_children hc).1 (lt_of_mem_children hc).2
    rw [hu.children ha (not_mem_of_mem_descendants hid), hsplit, exchange_split, hrow.append,
      hrow.append, hleft, hright, hmid hu]
    simp only [List.append_assoc]

/-- What stands above the place is written around what it holds, if it has an end tag. -/
theorem rowwise_spelling (hleaf : ∀ c, id ∈ t.descendants c → (t.kind c).isLeaf = false) :
    t.Rowwise id fun u cs => (u.rowForest cs).spelling where
  append u cs ds := by rw [rowForest_append, Forest.spelling_append]
  apart hu _ hlt hapart := congrArg Forest.spelling (hu.rowForest_eq hlt hapart)
  above := by
    intro c hidc
    obtain ⟨front, back, hspell⟩ := Kind.exists_spelling (hleaf c hidc)
    refine ⟨front, back, fun {u ids} hu => ?_⟩
    obtain ⟨hbelow, hsize⟩ := lt_of_mem_descendants hidc
    have hkind : u.kind c = t.kind c :=
      hu.kind (Nat.lt_trans hbelow hsize) (not_mem_of_mem_descendants hidc)
    rw [rowForest_cons, Forest.spelling_node, hkind, hspell, rowForest_nil, Forest.spelling_nil,
      List.append_nil, Tree.forest_eq]

/-- Around one place of a tree, all that is the same but for this place is written alike, if what
stands above the place has an end tag. -/
theorem Linked.exists_around (h : t.Linked) (hleaf : ∀ c, id ∈ t.descendants c →
    (t.kind c).isLeaf = false) {a : Nat} (hid : id ∈ t.descendants a) :
    ∃ before after, ∀ {u ids}, t.Patch u id ids →
      (u.forest a).spelling = before ++ (u.rowForest ids).spelling ++ after := by
  obtain ⟨before, after, hpieces⟩ := h.exists_pieces (rowwise_spelling hleaf) hid
  refine ⟨before, after, fun {u ids} hu => ?_⟩
  rw [Tree.forest_eq]
  exact hpieces hu

theorem Shaped.isLeaf_eq_false (h : t.Shaped) {a : Nat} (hid : id ∈ t.descendants a) :
    (t.kind a).isLeaf = false := by
  refine Bool.eq_false_iff.2 fun hl => ?_
  rw [descendants_eq, h.childless hl] at hid
  cases hid

theorem Shaped.exists_around (h : t.Shaped) {a : Nat} (hid : id ∈ t.descendants a) :
    ∃ before after, ∀ {u ids}, t.Patch u id ids →
      (u.forest a).spelling = before ++ (u.rowForest ids).spelling ++ after :=
  h.linked.exists_around (fun _ => h.isLeaf_eq_false) hid

/-! ## What the edits of links take out and bring in -/

/-- Replacing what a node holds changes nothing but this. -/
theorem patch_setText (hid : id < t.size) (body : String) :
    t.Patch (t.setText id body) id [id] where
  kind hp _ := by rw [kind_setText hid, if_neg (Nat.ne_of_lt hp)]
  children := by
    intro p hp hout
    have hne : p ≠ id := fun he => hout (List.mem_cons.2 (.inl he))
    rw [children_setText hid, if_neg hne, if_neg (Nat.ne_of_lt hp), exchange_self]

/-- Unlinking a node leaves nothing in its place. -/
theorem Linked.patch_detach (h : t.Linked) {q : Nat} (hid : t.parent id = some q) :
    t.Patch (t.detach id).1 id [] where
  kind _ _ := kind_detach t id _
  children := by
    intro p _ _
    rw [children_detach hid]
    split
    · exact (exchange_nil id _).symm
    · rename_i hpq
      refine (exchange_of_not_mem [] fun hm => hpq ?_).symm
      exact Option.some.inj ((h.mem_children_iff.1 hm).symm.trans hid)

/-- Unlinking a node takes it out of the text, with all below it, and nothing else, if what stands
above it has an end tag. -/
theorem Linked.exists_detach (h : t.Linked) (hroot : t.kind Tree.root = .root)
    (hleaf : ∀ c, id ∈ t.descendants c → (t.kind c).isLeaf = false)
    (hid : id ∈ t.descendants Tree.root) :
    ∃ before after, t.serialize.toList = before ++ (t.write id).toList ++ after ∧
      (t.detach id).1.serialize.toList = before ++ after := by
  obtain ⟨before, after, haround⟩ := h.exists_around hleaf hid
  obtain ⟨q, -, hq⟩ := h.parent_of_mem_descendants hid
  refine ⟨before, after, ?_, ?_⟩
  · rw [toList_serialize hroot, haround (patch_refl t id), spelling_rowForest_singleton]
  · have hroot : (t.detach id).1.kind Tree.root = .root := by rw [kind_detach, hroot]
    rw [toList_serialize hroot, haround (h.patch_detach hq)]
    simp

/-- Unlinking an element takes it out of the text of a proper tree. -/
theorem Proper.exists_detach (h : t.Proper) (hid : id ∈ t.descendants Tree.root)
    (he : ∃ e, t.element? id = some e) :
    ∃ before after, t.serialize = before ++ t.write id ++ after ∧
      (t.detach id).1.serialize = before ++ after := by
  obtain ⟨before, after, ht, hu⟩ :=
    h.linked.exists_detach h.root (fun _ hm => h.isLeaf_eq_false hm he) hid
  refine ⟨String.ofList before, String.ofList after, ?_, ?_⟩
  · apply String.toList_injective
    simp [ht]
  · apply String.toList_injective
    simp [hu]

/-- Replacing what a node holds by a text replaces one piece of the text of the page. -/
theorem Shaped.exists_setText (h : t.Shaped) (hid : id ∈ t.descendants root)
    (hleaf : (t.kind id).isLeaf = false) :
    ∃ before after, t.serialize.toList = before ++ (t.forest id).spelling ++ after ∧
      ∀ body, (t.setText id body).serialize.toList = before ++ body.toList ++ after := by
  have hlt := (lt_of_mem_descendants hid).2
  obtain ⟨before, after, haround⟩ := h.exists_around hid
  obtain ⟨front, back, hspell⟩ := Kind.exists_spelling hleaf
  refine ⟨before ++ front, back ++ after, ?_, fun body => ?_⟩
  · rw [toList_serialize h.root, haround (patch_refl t id), spelling_rowForest_singleton,
      toList_write, hspell]
    simp only [List.append_assoc]
  · have hroot : (t.setText id body).kind root = .root :=
      (kind_setText hlt body root).trans ((if_neg (Nat.ne_of_lt h.pos)).trans h.root)
    have hkind : (t.setText id body).kind id = t.kind id := by
      rw [kind_setText hlt, if_neg (Nat.ne_of_lt hlt)]
    have hforest : (t.setText id body).forest id = .leaf (.text body) := by
      rw [Tree.forest_eq, children_setText hlt, if_pos rfl, rowForest_cons, kind_setText hlt,
        if_pos rfl, Tree.forest_eq, children_setText hlt, if_neg (Nat.ne_of_gt hlt), if_pos rfl]
      rfl
    rw [toList_serialize hroot, haround (patch_setText hlt body), spelling_rowForest_singleton,
      toList_write, hkind, hspell, hforest]
    simp [Forest.leaf, Kind.spelling]

/-! ## Bytes of a page -/

/-- What is written of a node is written of each node above it. -/
theorem Shaped.byteLength_write_le (h : t.Shaped) {a : Nat} (hid : id ∈ t.descendants a) :
    byteLength (t.write id).toList ≤ byteLength (t.forest a).spelling := by
  obtain ⟨before, after, haround⟩ := h.exists_around hid
  rw [haround (patch_refl t id), spelling_rowForest_singleton]
  simp only [byteLength_append]
  omega

theorem Shaped.byteLength_forest_le (h : t.Shaped) (id : Nat) :
    byteLength (t.forest id).spelling ≤ byteLength (t.write id).toList := by
  cases hl : (t.kind id).isLeaf with
  | true =>
    rw [forest_eq_nil (h.childless hl)]
    exact Nat.zero_le _
  | false =>
    obtain ⟨front, back, hspell⟩ := Kind.exists_spelling hl
    rw [toList_write, hspell]
    simp only [byteLength_append]
    omega

theorem Shaped.byteLength_detach (h : t.Shaped) (hid : id ∈ t.descendants root) :
    byteLength (t.detach id).1.serialize.toList + byteLength (t.write id).toList =
      byteLength t.serialize.toList := by
  obtain ⟨before, after, ht, hu⟩ :=
    h.linked.exists_detach h.root (fun _ => h.isLeaf_eq_false) hid
  rw [ht, hu]
  simp only [byteLength_append]
  omega

theorem Shaped.byteLength_setText (h : t.Shaped) (hid : id ∈ t.descendants root)
    (hleaf : (t.kind id).isLeaf = false) (body : String) :
    byteLength (t.setText id body).serialize.toList + byteLength (t.forest id).spelling =
      byteLength t.serialize.toList + byteLength body.toList := by
  obtain ⟨before, after, ht, hu⟩ := h.exists_setText hid hleaf
  rw [ht, hu]
  simp only [byteLength_append]
  omega

/-- The text below a node stands in what is written of it. -/
theorem Shaped.text_sublist_spelling (h : t.Shaped) (id : Nat) :
    (t.forest id).text.Sublist (t.forest id).spelling := by
  induction id using induction_rows (t := t) (Q := fun cs =>
    (t.rowForest cs).text.Sublist (t.rowForest cs).spelling) with
  | nil => exact List.Sublist.refl _
  | cons c cs hc hcs =>
    rw [rowForest_cons, Forest.text, Forest.spelling_node]
    refine List.Sublist.append ?_ hcs
    cases hl : (t.kind c).isLeaf with
    | true =>
      -- a text has nothing but itself, and other leaves have no text
      rw [forest_eq_nil (h.childless hl)]
      cases hk : t.kind c with
      | root => exact List.nil_sublist _
      | element e => exact List.nil_sublist _
      | text body =>
        show (body.toList ++ []).Sublist body.toList
        rw [List.append_nil]
      | markup s => exact List.nil_sublist _
    | false =>
      have hown : (t.kind c).text? = none := by
        cases hk : t.kind c with
        | text body => rw [hk] at hl; cases hl
        | _ => rfl
      obtain ⟨front, back, hspell⟩ := Kind.exists_spelling hl
      rw [hown, hspell]
      exact hc.trans ((List.sublist_append_right front _).trans (List.sublist_append_left _ back))
  | node id hrow =>
    rw [forest_eq]
    exact hrow

/-- Taking a pattern out of texts adds no bytes. -/
theorem Linked.byteLength_replaceText_le (h : t.Linked) (id : Nat) (pattern : String) (a : Nat) :
    byteLength ((t.replaceText id pattern "").1.forest a).spelling ≤
      byteLength (t.forest a).spelling := by
  induction a using induction_rows (t := t) (Q := fun cs =>
    byteLength ((t.replaceText id pattern "").1.rowForest cs).spelling ≤
      byteLength (t.rowForest cs).spelling) with
  | nil => exact Nat.le_refl _
  | cons c cs hc hcs =>
    have hkind : byteLength (((t.replaceText id pattern "").1.kind c).spelling
        (t.children c).isEmpty ((t.replaceText id pattern "").1.forest c).spelling) ≤
          byteLength ((t.kind c).spelling (t.children c).isEmpty (t.forest c).spelling) := by
      rw [h.kind_replaceText]
      split
      · exact Kind.byteLength_replaceEach_le _ _ _ hc
      · have hle := Kind.byteLength_replaceEach_le "" (t.kind c) (t.children c).isEmpty hc
        rwa [Kind.replaceEach_empty] at hle
    rw [rowForest_cons, rowForest_cons, Forest.spelling_node, Forest.spelling_node, isNil_forest,
      isNil_forest, children_replaceText, byteLength_append, byteLength_append]
    exact Nat.add_le_add hkind hcs
  | node a hrow =>
    rw [forest_eq, forest_eq, children_replaceText]
    exact hrow

end

end Tree

end PageMend.Markup
