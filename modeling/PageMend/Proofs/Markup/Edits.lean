import PageMend.Proofs.Markup.Sound

/-!
# Edits keep a tree sound

Unlinking a node takes nothing from the others that a sound tree needs. Replacing text, or all that
an element holds, keeps the shape of the tree. It keeps the tree sound if the new text has no
bracket or, in a script or style sheet, is still read as its body (`Tree.StaysLegible`).

Neither unlinking a node nor replacing what an element holds brings an element below another that
was not there (`Tree.Trims`).
-/

namespace PageMend.Markup.Tree

/-! ## Fewer elements -/

/-- Whether all elements of a tree were elements of another, below the same nodes and maybe more. -/
structure Trims (u t : Tree) : Prop where
  element : ∀ {i e}, u.element? i = some e → t.element? i = some e
  below : ∀ {id n e}, n ∈ u.descendants id → u.element? n = some e → n ∈ t.descendants id

theorem Trims.refl (t : Tree) : t.Trims t := ⟨id, fun hn _ => hn⟩

theorem Trims.trans {t u v : Tree} (h : u.Trims t) (h' : v.Trims u) : v.Trims t where
  element he := h.element (h'.element he)
  below hn he := h.below (h'.below hn he) (h'.element he)

/-- It is enough that each child was one before, or is no element and has nothing below it. -/
theorem Trims.of_children {u t : Tree}
    (element : ∀ {i e}, u.element? i = some e → t.element? i = some e)
    (children : ∀ {p c}, c ∈ u.children p →
      c ∈ t.children p ∨ u.element? c = none ∧ u.children c = []) : u.Trims t := by
  have hall : ∀ id, ∀ n ∈ u.descendants id,
      n ∈ t.descendants id ∨ u.element? n = none ∧ u.children n = [] := by
    intro id
    induction id using induction_children (t := u) with
    | step id ih =>
      intro n hn
      rw [descendants_eq, List.mem_flatMap] at hn
      obtain ⟨c, hc, hn⟩ := hn
      rcases children hc with hct | ⟨hnone, hnil⟩
      · have hmem := mem_descendants_of_mem_children hct
        rcases List.mem_cons.1 hn with rfl | hn
        · exact .inl hmem
        · exact (ih c hc n hn).imp_left (mem_descendants_trans hmem)
      · rcases List.mem_cons.1 hn with rfl | hn
        · exact .inr ⟨hnone, hnil⟩
        · rw [descendants_eq, hnil] at hn
          cases hn
  refine ⟨element, fun hn he => (hall _ _ hn).resolve_right fun hnone => ?_⟩
  rw [hnone.1] at he
  cases he

/-- An element that is left with a tag name had it before. -/
theorem Trims.of_mem_elementsNamed {u t : Tree} (h : u.Trims t) {id n : Nat} {tag : String}
    (hn : n ∈ u.elementsNamed id tag) :
    n ∈ t.elementsNamed id tag ∧ t.element? n = u.element? n := by
  obtain ⟨hmem, hnamed⟩ := List.mem_filter.1 hn
  obtain ⟨e, he, hname⟩ := (Option.any_eq_true _ _).1 hnamed
  have hsame : t.element? n = u.element? n := (h.element he).trans he.symm
  refine ⟨List.mem_filter.2 ⟨h.below hmem he, ?_⟩, hsame⟩
  rwa [isNamed, hsame]

/-- A tree with fewer children has fewer nodes below a node. -/
theorem descendants_subset {u t : Tree} (h : ∀ i, u.children i ⊆ t.children i) (id : Nat) :
    u.descendants id ⊆ t.descendants id := by
  induction id using induction_children (t := u) with
  | step id ih =>
    intro n hn
    rw [descendants_eq, List.mem_flatMap] at hn ⊢
    obtain ⟨c, hc, hn⟩ := hn
    exact ⟨c, h id hc, List.cons_subset_cons c (ih c hc) hn⟩

/-! ## The three edits -/

/-- Dropping children keeps the shape of a tree. -/
theorem ShapedBut.of_sublist {t u : Tree} {waiting : List Nat} (h : t.ShapedBut waiting)
    (hlinked : u.Linked) (hsize : u.size = t.size) (hkind : ∀ i, u.kind i = t.kind i)
    (hsub : ∀ i, (u.children i).Sublist (t.children i)) : u.ShapedBut waiting where
  linked := hlinked
  pos := hsize ▸ h.pos
  root := by rw [hkind, h.root]
  inner := by
    intro p c hc
    rw [hkind]
    exact h.inner ((hsub p).subset hc)
  kinds := by
    intro id
    rw [hkind]
    exact h.kinds id
  stop := by
    intro id e hk
    rw [hkind] at hk
    exact h.stop hk
  childless := by
    intro id hl
    rw [hkind] at hl
    have hs := hsub id
    rw [h.childless hl] at hs
    exact List.sublist_nil.1 hs
  filled := by
    intro id hr
    rw [hkind] at hr
    have hs := hsub id
    rcases h.filled hr with hnil | ⟨c, body, hone, hkc⟩
    · rw [hnil] at hs
      exact .inl (List.sublist_nil.1 hs)
    · rw [hone] at hs
      rcases List.sublist_singleton.1 hs with hnil | hone'
      · exact .inl hnil
      · exact .inr ⟨c, body, hone', by rw [hkind, hkc]⟩

/-- Each text stays where it is, or is dropped. -/
theorem SoundBut.of_sublist {t u : Tree} {waiting : List Nat} (h : t.SoundBut waiting)
    (hlinked : u.Linked) (hsize : u.size = t.size) (hkind : ∀ i, u.kind i = t.kind i)
    (hsub : ∀ i, (u.children i).Sublist (t.children i)) : u.SoundBut waiting where
  toShapedBut := h.toShapedBut.of_sublist hlinked hsize hkind hsub
  texts := by
    intro p c body hc hk
    rw [hkind] at hk ⊢
    exact h.texts ((hsub p).subset hc) hk

theorem Shaped.detach {t : Tree} (h : t.Shaped) (id : Nat) : (t.detach id).1.Shaped :=
  h.of_sublist (h.linked.detach id) (size_detach t id) (kind_detach t id)
    (children_detach_sublist t id)

theorem Sound.detach {t : Tree} (h : t.Sound) (id : Nat) : (t.detach id).1.Sound :=
  h.of_sublist (h.linked.detach id) (size_detach t id) (kind_detach t id)
    (children_detach_sublist t id)

theorem trims_detach (t : Tree) (id : Nat) : (t.detach id).1.Trims t := by
  refine .of_children (fun {i e} he => ?_) fun hc =>
    .inl ((children_detach_sublist t id _).subset hc)
  rwa [element?, kind_detach] at he

theorem children_emptied_sublist (t : Tree) (id i : Nat) :
    ((t.emptied id).children i).Sublist (t.children i) := by
  rw [children_emptied]
  split
  · exact List.nil_sublist _
  · exact List.Sublist.refl _

/-- An element that can have content, and is no script or style sheet, may hold one text instead. -/
theorem Shaped.setText {t : Tree} (h : t.Shaped) {id : Nat} (hid : id < t.size)
    (hleaf : (t.kind id).isLeaf = false) (hraw : (t.kind id).isRaw = false) (body : String) :
    (t.setText id body).Shaped := by
  have hempty : (t.emptied id).ShapedBut [] :=
    h.of_sublist (h.linked.emptied id) (size_emptied t id) (kind_emptied t id)
      (children_emptied_sublist t id)
  have hid : id < (t.emptied id).size := by rwa [size_emptied]
  rw [setText_eq]
  apply ShapedBut.stopped
  · apply hempty.appendChild hid (k := .text body) trivial Kind.noConfusion
    · rwa [kind_emptied]
    · intro hr
      rw [kind_emptied] at hr
      exact absurd (hraw.symm.trans hr) Bool.false_ne_true
  · intro e hk
    rw [kind_appendChild_new hid] at hk
    cases hk

/-- If the text has no bracket, the tree stays sound. -/
theorem Sound.setText {t : Tree} (h : t.Sound) {id : Nat} {body : String} (hid : id < t.size)
    (hleaf : (t.kind id).isLeaf = false) (hraw : (t.kind id).isRaw = false)
    (hbody : '<' ∉ body.toList) : (t.setText id body).Sound where
  toShapedBut := h.shaped.setText hid hleaf hraw body
  texts := by
    intro p c text hc hk
    have hplace : (t.setText id body).kind p = t.kind p := by
      rw [kind_setText hid]
      split
      · -- the new text holds nothing
        rename_i hp
        rw [children_setText hid, hp, if_neg (Nat.ne_of_gt hid), if_pos rfl] at hc
        cases hc
      · rfl
    rw [hplace]
    rw [children_setText hid] at hc
    rw [kind_setText hid] at hk
    split at hc
    · rename_i hp
      obtain rfl := List.mem_singleton.1 hc
      rw [if_pos rfl] at hk
      cases hk
      rw [hp, Kind.holds_iff_of_plain hraw]
      exact hbody
    · split at hc
      · cases hc
      · rw [if_neg (Nat.ne_of_lt (lt_of_mem_children hc).2)] at hk
        exact h.texts hc hk

theorem trims_setText {t : Tree} {id : Nat} (hid : id < t.size) (body : String) :
    (t.setText id body).Trims t := by
  refine .of_children (fun {i e} he => ?_) fun {p c} hc => ?_
  · rw [element?, kind_setText hid] at he
    split at he
    · cases he
    · exact he
  · rw [children_setText hid] at hc
    split at hc
    · rename_i hp
      refine .inr ?_
      rw [List.mem_singleton.1 hc, element?, kind_setText hid, if_pos rfl, children_setText hid,
        if_neg (Nat.ne_of_gt hid), if_pos rfl]
      exact ⟨rfl, rfl⟩
    · split at hc
      · cases hc
      · exact .inl hc

/-! ### Replacing text -/

theorem isRaw_replaceEach (pattern replacement : String) (k : Kind) :
    (k.replaceEach pattern replacement).isRaw = k.isRaw := by
  cases k <;> rfl

/-- A node is as it was, or it is the text in which the pattern is replaced. -/
theorem kind_replaceHere_cases (t : Tree) (pattern replacement : String) (n i : Nat) :
    (t.replaceHere pattern replacement n).kind i = t.kind i ∨
      i = n ∧ ∃ body, t.kind i = .text body ∧
        (t.replaceHere pattern replacement n).kind i =
          .text (body.replaceEach pattern replacement) := by
  rw [kind_replaceHere]
  split
  · rename_i hi
    cases hk : t.kind i with
    | text body => exact .inr ⟨hi, body, rfl, rfl⟩
    | _ => exact .inl rfl
  · exact .inl rfl

theorem isRaw_replaceHere (t : Tree) (pattern replacement : String) (n i : Nat) :
    ((t.replaceHere pattern replacement n).kind i).isRaw = (t.kind i).isRaw := by
  rw [kind_replaceHere]
  split
  · exact isRaw_replaceEach _ _ _
  · rfl

theorem kind_of_replaceHere {t : Tree} {pattern replacement : String} {n i : Nat} {e : Element}
    (h : (t.replaceHere pattern replacement n).kind i = .element e) : t.kind i = .element e := by
  rcases kind_replaceHere_cases t pattern replacement n i with hsame | ⟨-, body, -, hnew⟩
  · rwa [hsame] at h
  · rw [hnew] at h
    cases h

theorem kind_replaceHere_ne_root {t : Tree} {i : Nat} (h : t.kind i ≠ .root)
    (pattern replacement : String) (n : Nat) :
    (t.replaceHere pattern replacement n).kind i ≠ .root := by
  rcases kind_replaceHere_cases t pattern replacement n i with hsame | ⟨-, body, -, hnew⟩
  · rwa [hsame]
  · rw [hnew]
    exact Kind.noConfusion

/-- Replacing a pattern in one text keeps the shape of a tree. -/
theorem Shaped.replaceHere {t : Tree} (h : t.Shaped) (pattern replacement : String) (n : Nat) :
    (t.replaceHere pattern replacement n).Shaped where
  linked := h.linked.replaceHere n pattern replacement
  pos := by
    rw [size_replaceHere]
    exact h.pos
  root := by
    rcases kind_replaceHere_cases t pattern replacement n Tree.root with
      hsame | ⟨-, body, htext, -⟩
    · rw [hsame, h.root]
    · rw [h.root] at htext
      cases htext
  inner := by
    intro p c hc
    rw [children_replaceHere] at hc
    exact kind_replaceHere_ne_root (h.inner hc) pattern replacement n
  kinds := by
    intro id
    rcases kind_replaceHere_cases t pattern replacement n id with hsame | ⟨-, body, -, hnew⟩
    · rw [hsame]
      exact h.kinds id
    · rw [hnew]
      trivial
  stop := fun hk => h.stop (kind_of_replaceHere hk)
  childless := by
    intro id hl
    rw [children_replaceHere]
    apply h.childless
    rcases kind_replaceHere_cases t pattern replacement n id with hsame | ⟨-, body, htext, -⟩
    · rwa [hsame] at hl
    · rw [htext]
      rfl
  filled := by
    intro id hr
    rw [isRaw_replaceHere] at hr
    rw [children_replaceHere]
    rcases h.filled hr with hnil | ⟨c, body, hone, hkc⟩
    · exact .inl hnil
    · -- a text stays a text
      rcases kind_replaceHere_cases t pattern replacement n c with hsame | ⟨-, before, -, hnew⟩
      · exact .inr ⟨c, body, hone, by rw [hsame, hkc]⟩
      · exact .inr ⟨c, _, hone, hnew⟩

theorem Shaped.replaceText {t : Tree} (h : t.Shaped) (id : Nat) (pattern replacement : String) :
    (t.replaceText id pattern replacement).1.Shaped :=
  replaceText_induction (P := Shaped) t pattern replacement h fun _ n _ hu =>
    hu.replaceHere pattern replacement n

theorem mem_text?_iff {t : Tree} {n : Nat} {body : String} :
    body ∈ t.text? n ↔ t.kind n = .text body := by
  unfold text?
  cases t.kind n <;> simp [Kind.text?]

/-- Whether each text below a node can be read where it is once the pattern in it is replaced. -/
def StaysLegible (t : Tree) (id : Nat) (pattern replacement : String) : Prop :=
  ∀ p ∈ id :: t.descendants id, ∀ c ∈ t.children p, ∀ body ∈ t.text? c,
    (t.kind p).Holds (body.replaceEach pattern replacement)

/-- Replacing text below a node keeps a tree sound if the new texts can be read. -/
theorem Sound.replaceText {t : Tree} (h : t.Sound) {id : Nat} {pattern replacement : String}
    (hid : t.text? id = none) (hlegible : t.StaysLegible id pattern replacement) :
    (t.replaceText id pattern replacement).1.Sound where
  toShapedBut := h.shaped.replaceText id pattern replacement
  texts := by
    intro p c body hc hk
    rw [children_replaceText] at hc
    have hplace : (t.replaceText id pattern replacement).1.kind p = t.kind p := by
      rw [h.linked.kind_replaceText]
      cases hp : t.kind p with
      | text before =>
        rw [h.childless (by rw [hp]; rfl)] at hc
        cases hc
      | _ => exact ite_self _
    rw [hplace]
    rw [h.linked.kind_replaceText] at hk
    split at hk
    · rename_i hmem
      cases hbefore : t.kind c with
      | text before =>
        rw [hbefore] at hk
        cases hk
        -- the text is not the node itself, so what holds it is at or below the node
        have hp : p ∈ id :: t.descendants id := by
          rcases List.mem_cons.1 hmem with rfl | hmem
          · rw [text?, hbefore] at hid
            cases hid
          · obtain ⟨q, hq, hparent⟩ := h.linked.parent_of_mem_descendants hmem
            obtain rfl : q = p :=
              Option.some.inj (hparent.symm.trans (h.linked.mem_children_iff.1 hc))
            exact List.mem_cons.2 hq
        exact hlegible p hp c hc before (mem_text?_iff.2 hbefore)
      | _ =>
        rw [hbefore] at hk
        cases hk
    · exact h.texts hc hk

end PageMend.Markup.Tree
