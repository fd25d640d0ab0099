import PageMend.Proofs.Markup.Links
import PageMend.Proofs.Markup.RoundTrip

/-!
# Sound trees

A tree is sound if a reader could have made each of its nodes where it is (`Tree.Sound`): tags read
back, leaves have no children, a script or style sheet holds at most one text, and each text can be
read where it is (`Kind.Holds`). `sound_of_parse` says that every tree that was read is sound.
Unlike the shape of a tree that was read, soundness allows for empty texts and for texts side by
side, which edits leave behind. All but the texts is `Tree.Shaped`, which no edit of a rule can
break.

While a tree grows, the elements that are open wait for their end tag, and all that is known of
their end tag is that it has not come yet. `Tree.SoundBut` therefore leaves out the end tags of
some nodes, which are those of the frames.
-/

namespace PageMend.Markup

/-! ## What a node may be -/

/-- Whether an element never has content. -/
def Element.isLeaf (e : Element) : Bool := e.isVoid || e.selfClosing

/-- Whether the content of an element is raw text. -/
def Element.isRaw (e : Element) : Bool := isRawTextName e.name && !e.selfClosing

/-- An element as the reader makes it, with a tag that reads back. -/
structure Element.Readable (e : Element) : Prop where
  reads : Growth.elementOf e.name.toList e.attributes.toList e.selfClosing = .ok e
  tag : (if e.selfClosing then e.emptyTag else e.startTag).ReadsBack

namespace Kind

def isLeaf : Kind → Bool
  | .root => false
  | .element e => e.isLeaf
  | _ => true

def isRaw : Kind → Bool
  | .element e => e.isRaw
  | _ => false

/-- Whether a text can be read where it is, in a node of that kind: it has no bracket, or it is the
body of a script or style sheet. -/
def Holds : Kind → String → Prop
  | .element e, body =>
    if e.isRaw then RawBody e.name.toList body.toList else '<' ∉ body.toList
  | _, body => '<' ∉ body.toList

theorem holds_iff_of_plain {k : Kind} (h : k.isRaw = false) (body : String) :
    k.Holds body ↔ '<' ∉ body.toList := by
  cases k with
  | element e =>
    have hraw : ¬ e.isRaw = true := Bool.eq_false_iff.1 h
    show (if e.isRaw = true then _ else _) ↔ _
    rw [if_neg hraw]
  | _ => exact Iff.rfl

theorem holds_iff_of_isRaw {e : Element} (h : e.isRaw = true) (body : String) :
    (Kind.element e).Holds body ↔ RawBody e.name.toList body.toList := by
  show (if e.isRaw = true then _ else _) ↔ _
  rw [if_pos h]

/-- What a node has to be by itself. -/
def Sound : Kind → Prop
  | .element e => e.Readable
  | .markup s => ∃ t : Token, t.ReadsBack ∧ Growth.Makes t (.markup s)
  | _ => True

end Kind

theorem sameName_congr {name other : String} (h : sameName name other = true) :
    sameName name = sameName other := by
  funext b
  simp only [sameName, eq_of_beq h]

/-- No name of a void element is that of a script or style sheet. -/
theorem isVoidName_of_isRawTextName {name : String} (h : isRawTextName name = true) :
    isVoidName name = false := by
  rw [isRawTextName, Bool.or_eq_true] at h
  rcases h with h | h
  · rw [isVoidName, sameName_congr h]
    decide
  · rw [isVoidName, sameName_congr h]
    decide

/-! ### Tokens that read back -/

/-- A text that reads back has no bracket in it. -/
theorem bracket_not_mem_of_readsBack {body : List Char} (h : (Token.text body).ReadsBack) :
    '<' ∉ body := by
  have hread := h [] (fun _ hc => nomatch hc)
  rcases readToken_cases hread with ⟨tail, -, ht⟩ | ⟨body', -, hb, -, heq⟩
  · exact absurd (isCharacters_of_readTag ht) Bool.noConfusion
  · cases heq
    exact hb

/-- No token is read as raw text. -/
theorem not_readsBack_rawText (body : List Char) : ¬ (Token.rawText body).ReadsBack := by
  intro h
  rcases readToken_cases (h [] trivial) with ⟨tail, -, ht⟩ | ⟨body', -, -, -, heq⟩
  · exact absurd (isCharacters_of_readTag ht) Bool.noConfusion
  · cases heq

/-- What a token makes is sound if the token reads back. -/
theorem Growth.Makes.sound {t : Token} {k : Kind} (h : Growth.Makes t k) (hr : t.ReadsBack) :
    k.Sound ∧ k ≠ .root ∧ k.isLeaf = true := by
  refine ⟨?_, ?_, ?_⟩
  · cases h with
    | text body => trivial
    | rawText body => trivial
    | comment body => exact ⟨_, hr, .comment body⟩
    | cdata body => exact ⟨_, hr, .cdata body⟩
    | instruction body => exact ⟨_, hr, .instruction body⟩
    | doctype body => exact ⟨_, hr, .doctype body⟩
    | voidEnd hv => exact ⟨_, hr, .voidEnd hv⟩
    | emptyTag he =>
      obtain ⟨hn, ha, hs⟩ := Growth.elementOf_eq_ok he
      constructor
      · rw [hn, ha, hs, String.toList_ofList, String.toList_ofList]
        exact he
      · rw [hs, if_pos rfl, Growth.emptyTag_of_elementOf he]
        exact hr
    | voidTag he hv =>
      obtain ⟨hn, ha, hs⟩ := Growth.elementOf_eq_ok he
      constructor
      · rw [hn, ha, hs, String.toList_ofList, String.toList_ofList]
        exact he
      · rw [hs, if_neg Bool.false_ne_true, Growth.startTag_of_elementOf he]
        exact hr
  · cases h <;> exact Kind.noConfusion
  · cases h with
    | emptyTag he => simp [Kind.isLeaf, Element.isLeaf, (Growth.elementOf_eq_ok he).2.2]
    | voidTag he hv => simp [Kind.isLeaf, Element.isLeaf, hv]
    | _ => rfl

/-! ## Sound trees -/

namespace Tree

/-- A tree that a reader could have made but for its texts. The nodes in `waiting` have no end tag
yet. -/
structure ShapedBut (t : Tree) (waiting : List Nat) : Prop where
  linked : t.Linked
  pos : 0 < t.size
  root : t.kind Tree.root = .root
  inner : ∀ {p c}, c ∈ t.children p → t.kind c ≠ .root
  kinds : ∀ id, (t.kind id).Sound
  stop : ∀ {id e}, t.kind id = .element e → e.isLeaf = false → id ∉ waiting →
    e.endTag.ReadsBack
  childless : ∀ {id}, (t.kind id).isLeaf = true → t.children id = []
  filled : ∀ {id}, (t.kind id).isRaw = true → t.children id = [] ∨
    ∃ c body, t.children id = [c] ∧ t.kind c = .text body

/-- A tree that a reader could have made but for empty texts and texts side by side. -/
structure SoundBut (t : Tree) (waiting : List Nat) : Prop extends ShapedBut t waiting where
  texts : ∀ {p c body}, c ∈ t.children p → t.kind c = .text body → (t.kind p).Holds body

/-- A shaped tree in which no node waits for its end tag. -/
def Shaped (t : Tree) : Prop := t.ShapedBut []

/-- A sound tree in which no node waits for its end tag. -/
def Sound (t : Tree) : Prop := t.SoundBut []

theorem Sound.shaped {t : Tree} (h : t.Sound) : t.Shaped := h.toShapedBut

/-- Whether each text below a node can be read where it is. -/
def LegibleBelow (t : Tree) (id : Nat) : Prop :=
  ∀ p, p = id ∨ p ∈ t.descendants id → ∀ c ∈ t.children p, ∀ body, t.kind c = .text body →
    (t.kind p).Holds body

theorem Sound.legibleBelow {t : Tree} (h : t.Sound) (id : Nat) : t.LegibleBelow id :=
  fun _ _ _ hc _ hk => h.texts hc hk

theorem LegibleBelow.child {t : Tree} {id c : Nat} (h : t.LegibleBelow id)
    (hc : c ∈ t.children id) : t.LegibleBelow c := by
  have hmem := mem_descendants_of_mem_children hc
  intro p hp
  rcases hp with rfl | hp
  · exact h p (.inr hmem)
  · exact h p (.inr (mem_descendants_trans hmem hp))

theorem kind_eq_root {t : Tree} {i : Nat} (h : t.size ≤ i) : t.kind i = .root := by
  rw [kind, node_eq_default h]

theorem lt_size_of_kind_ne {t : Tree} {i : Nat} (h : t.kind i ≠ .root) : i < t.size :=
  Nat.lt_of_not_le fun hle => h (kind_eq_root hle)

theorem sound_empty : empty.Sound := by
  have hkind : ∀ i, empty.kind i = .root := fun i => by cases i <;> rfl
  have hchildren : ∀ i, empty.children i = [] := fun i => by cases i <;> rfl
  refine ⟨⟨linked_empty, Nat.one_pos, rfl, ?_, ?_, ?_, ?_, ?_⟩, ?_⟩
  · intro p c hc
    rw [hchildren] at hc
    cases hc
  · intro id
    rw [hkind]
    trivial
  · intro id e hk
    rw [hkind] at hk
    cases hk
  · exact fun _ => hchildren _
  · exact fun _ => .inl (hchildren _)
  · intro p c body hc
    rw [hchildren] at hc
    cases hc

section
variable {t : Tree} {waiting : List Nat}

/-- Once its end tag has come, a node waits no more. -/
theorem ShapedBut.stopped {id : Nat} (h : t.ShapedBut (id :: waiting))
    (hstop : ∀ e, t.kind id = .element e → e.isLeaf = false → e.endTag.ReadsBack) :
    t.ShapedBut waiting where
  linked := h.linked
  pos := h.pos
  root := h.root
  inner := h.inner
  kinds := h.kinds
  childless := h.childless
  filled := h.filled
  stop := by
    intro i e hk hl hi
    by_cases hid : i = id
    · subst hid
      exact hstop e hk hl
    · exact h.stop hk hl fun hm => (List.mem_cons.1 hm).elim hid hi

theorem SoundBut.stopped {id : Nat} (h : t.SoundBut (id :: waiting))
    (hstop : ∀ e, t.kind id = .element e → e.isLeaf = false → e.endTag.ReadsBack) :
    t.SoundBut waiting :=
  ⟨h.toShapedBut.stopped hstop, h.texts⟩

/-- A sound node may be added wherever it fits. It waits for its end tag. -/
theorem ShapedBut.appendChild (h : t.ShapedBut waiting) {p : Nat} (hp : p < t.size) {k : Kind}
    (hsound : k.Sound) (hroot : k ≠ .root) (hleaf : (t.kind p).isLeaf = false)
    (hraw : (t.kind p).isRaw = true → t.children p = [] ∧ ∃ body, k = .text body) :
    (t.appendChild p k).ShapedBut (t.size :: waiting) where
  linked := h.linked.appendChild hp k
  pos := by
    rw [size_appendChild _ hp]
    exact Nat.succ_pos _
  root := by
    exact (kind_appendChild_old hp k h.pos).trans h.root
  inner := by
    intro q c hc
    rcases mem_children_appendChild hp hc with hc | ⟨rfl, rfl⟩
    · rw [kind_appendChild_old hp k (lt_of_mem_children hc).2]
      exact h.inner hc
    · rw [kind_appendChild_new hp]
      exact hroot
  kinds := by
    intro id
    rw [kind_appendChild hp]
    split
    · exact hsound
    · exact h.kinds id
  stop := by
    intro id e hk hl hw
    obtain ⟨hs, hw⟩ := not_or.1 (mt List.mem_cons.2 hw)
    rw [kind_appendChild hp, if_neg hs] at hk
    exact h.stop hk hl hw
  childless := by
    intro id hl
    rw [children_appendChild hp]
    split
    · rename_i hid
      rw [hid, kind_appendChild_old hp k hp, hleaf] at hl
      cases hl
    · rename_i hid
      split
      · rfl
      · rename_i hs
        rw [kind_appendChild hp, if_neg hs] at hl
        exact h.childless hl
  filled := by
    intro id hr
    rw [children_appendChild hp]
    split
    · -- the new node is the body of a script or style sheet that was empty
      rename_i hid
      subst hid
      rw [kind_appendChild_old hp k hp] at hr
      obtain ⟨hnil, body, rfl⟩ := hraw hr
      refine .inr ⟨t.size, body, ?_, kind_appendChild_new hp _⟩
      rw [hnil]
      rfl
    · split
      · exact .inl rfl
      · rename_i hs
        rw [kind_appendChild hp, if_neg hs] at hr
        rcases h.filled hr with hnil | ⟨c, body, hone, hkc⟩
        · exact .inl hnil
        · refine .inr ⟨c, body, hone, ?_⟩
          have hc : c ∈ t.children id := by rw [hone]; exact List.mem_singleton.2 rfl
          rw [kind_appendChild_old hp k (lt_of_mem_children hc).2, hkc]

theorem SoundBut.appendChild (h : t.SoundBut waiting) {p : Nat} (hp : p < t.size) {k : Kind}
    (hsound : k.Sound) (hroot : k ≠ .root) (hleaf : (t.kind p).isLeaf = false)
    (hraw : (t.kind p).isRaw = true → t.children p = [] ∧ ∃ body, k = .text body)
    (htext : ∀ body, k = .text body → (t.kind p).Holds body) :
    (t.appendChild p k).SoundBut (t.size :: waiting) where
  toShapedBut := h.toShapedBut.appendChild hp hsound hroot hleaf hraw
  texts := by
    intro q c body hc hk
    rcases mem_children_appendChild hp hc with hc | ⟨rfl, rfl⟩
    · obtain ⟨hlt, hlt'⟩ := lt_of_mem_children hc
      rw [kind_appendChild_old hp k hlt'] at hk
      rw [kind_appendChild_old hp k (Nat.lt_trans hlt hlt')]
      exact h.texts hc hk
    · rw [kind_appendChild_new hp] at hk
      rw [kind_appendChild_old hp k hp]
      exact htext body hk

end

end Tree

/-! ## Growing trees are sound -/

namespace Growth

/-- A growth in which all but the end tags of the open elements has been seen. -/
structure Sound (g : Growth) : Prop where
  tree : g.tree.SoundBut (g.opened.map Prod.fst)
  opened : ∀ o ∈ g.opened, ∃ e, g.tree.kind o.1 = .element e ∧ e.name.toList = o.2 ∧
    e.isLeaf = false

/-- A growth in which no script or style sheet is open. -/
def Plain (g : Growth) : Prop := ∀ o ∈ g.opened, (g.tree.kind o.1).isRaw = false

theorem sound_start : start.Sound := ⟨Tree.sound_empty, fun _ h => nomatch h⟩

theorem plain_start : start.Plain := fun _ h => nomatch h

section
variable {g : Growth}

/-- The next node goes to the root or to the element that was opened last. -/
theorem innermost_cases (g : Growth) :
    g.opened = [] ∧ g.innermost = Tree.root ∨ ∃ o ∈ g.opened, g.innermost = o.1 := by
  cases hg : g.opened with
  | nil => exact .inl ⟨rfl, by rw [innermost, hg]; rfl⟩
  | cons o opened => exact .inr ⟨o, List.mem_cons_self, by rw [innermost, hg]; rfl⟩

theorem Sound.innermost (h : g.Sound) :
    g.innermost < g.tree.size ∧ (g.tree.kind g.innermost).isLeaf = false := by
  rcases innermost_cases g with ⟨-, hin⟩ | ⟨o, ho, hin⟩
  · rw [hin, h.tree.root]
    exact ⟨h.tree.pos, rfl⟩
  · obtain ⟨e, hk, -, hl⟩ := h.opened o ho
    have hne : g.tree.kind o.1 ≠ .root := by
      rw [hk]
      exact Kind.noConfusion
    rw [hin, hk]
    exact ⟨Tree.lt_size_of_kind_ne hne, hl⟩

theorem Sound.isRaw_innermost (h : g.Sound) (hp : g.Plain) :
    (g.tree.kind g.innermost).isRaw = false := by
  rcases innermost_cases g with ⟨-, hin⟩ | ⟨o, ho, hin⟩
  · rw [hin, h.tree.root]
    rfl
  · rw [hin]
    exact hp o ho

theorem Sound.kind_put (h : g.Sound) (k : Kind) (id : Nat) :
    (g.put k).tree.kind id = if id = g.tree.size then k else g.tree.kind id :=
  Tree.kind_appendChild h.innermost.1 k id

/-- The open elements are as they were when a node is put. -/
theorem Sound.kind_opened (h : g.Sound) (k : Kind) {o : Nat × List Char} (ho : o ∈ g.opened) :
    (g.put k).tree.kind o.1 = g.tree.kind o.1 := by
  obtain ⟨e, hk, -, -⟩ := h.opened o ho
  have hlt : o.1 < g.tree.size := Tree.lt_size_of_kind_ne (by rw [hk]; exact Kind.noConfusion)
  rw [h.kind_put, if_neg (Nat.ne_of_lt hlt)]

/-- Where no script or style sheet is open, any sound node fits that is no text with a bracket. -/
theorem Sound.put_waiting (h : g.Sound) (hp : g.Plain) {k : Kind} (hsound : k.Sound)
    (hroot : k ≠ .root) (htext : ∀ body, k = .text body → '<' ∉ body.toList) :
    (g.put k).tree.SoundBut (g.tree.size :: g.opened.map Prod.fst) := by
  obtain ⟨hlt, hleaf⟩ := h.innermost
  have hplain := h.isRaw_innermost hp
  apply h.tree.appendChild hlt hsound hroot hleaf
  · intro hraw
    exact absurd (hplain.symm.trans hraw) Bool.false_ne_true
  · intro body hk
    exact (Kind.holds_iff_of_plain hplain body).2 (htext body hk)

theorem Sound.put (h : g.Sound) (hp : g.Plain) {k : Kind} (hsound : k.Sound) (hroot : k ≠ .root)
    (hleaf : k.isLeaf = true) (htext : ∀ body, k = .text body → '<' ∉ body.toList) :
    (g.put k).Sound ∧ (g.put k).Plain := by
  refine ⟨⟨?_, ?_⟩, ?_⟩
  · apply (h.put_waiting hp hsound hroot htext).stopped
    intro e hk hl
    rw [h.kind_put, if_pos rfl] at hk
    rw [hk] at hleaf
    exact absurd (hl.symm.trans hleaf) Bool.false_ne_true
  · intro o ho
    rw [h.kind_opened k ho]
    exact h.opened o ho
  · intro o ho
    rw [h.kind_opened k ho]
    exact hp o ho

/-- An element that is entered waits for its end tag. -/
theorem Sound.enter (h : g.Sound) (hp : g.Plain) {e : Element} (hread : e.Readable)
    (hleaf : e.isLeaf = false) : (g.enter e e.name.toList).Sound := by
  have hput := h.put_waiting hp (k := .element e) hread Kind.noConfusion fun _ hk =>
    Kind.noConfusion hk
  refine ⟨hput, fun o ho => ?_⟩
  rcases List.mem_cons.1 ho with rfl | ho
  · refine ⟨e, ?_, rfl, hleaf⟩
    show (g.put (.element e)).tree.kind g.tree.size = _
    rw [h.kind_put, if_pos rfl]
  · show ∃ e', (g.put (.element e)).tree.kind o.1 = .element e' ∧ _
    rw [h.kind_opened _ ho]
    exact h.opened o ho

theorem Sound.close (h : g.Sound) {id : Nat} {name : List Char} {opened : List (Nat × List Char)}
    (ho : g.opened = (id, name) :: opened) (hstop : (Token.endTag name).ReadsBack) :
    Sound { g with opened } := by
  have htree := h.tree
  rw [ho] at htree
  constructor
  · apply htree.stopped
    intro e hk _
    obtain ⟨e', hk', hname, -⟩ := h.opened (id, name) (by rw [ho]; exact List.mem_cons_self)
    cases hk.symm.trans hk'
    rw [Element.endTag, hname]
    exact hstop
  · intro o hm
    apply h.opened o
    rw [ho]
    exact List.mem_cons_of_mem _ hm

/-- The body of a script or style sheet goes into the element that was entered for it. -/
theorem Sound.put_body (h : g.Sound) (hp : g.Plain) {e : Element} (hread : e.Readable)
    (hleaf : e.isLeaf = false) (hraw : e.isRaw = true) {body : List Char}
    (hbody : RawBody e.name.toList body) :
    ((g.enter e e.name.toList).put (.text (String.ofList body))).Sound := by
  have henter := h.enter hp hread hleaf
  have hin : (g.enter e e.name.toList).innermost = g.tree.size := rfl
  have hkind : (g.enter e e.name.toList).tree.kind g.tree.size = .element e := by
    show (g.put (.element e)).tree.kind g.tree.size = _
    rw [h.kind_put, if_pos rfl]
  have hchildren : (g.enter e e.name.toList).tree.children g.tree.size = [] := by
    show (g.tree.appendChild g.innermost (.element e)).children g.tree.size = []
    rw [Tree.children_appendChild h.innermost.1, if_neg (Nat.ne_of_gt h.innermost.1), if_pos rfl]
  constructor
  · refine Tree.SoundBut.stopped (henter.tree.appendChild henter.innermost.1 trivial
      Kind.noConfusion henter.innermost.2 ?_ ?_) ?_
    · intro _
      rw [hin]
      exact ⟨hchildren, _, rfl⟩
    · intro body' hk
      cases hk
      rw [hin, hkind, Kind.holds_iff_of_isRaw hraw, String.toList_ofList]
      exact hbody
    · intro e' hk
      rw [henter.kind_put, if_pos rfl] at hk
      cases hk
  · intro o ho
    rw [henter.kind_opened _ ho]
    exact henter.opened o ho

/-- An element for raw text may be filled, with at most one text. -/
theorem Sound.fill (h : g.Sound) (hp : g.Plain) {e : Element} (hread : e.Readable)
    (hleaf : e.isLeaf = false) (hraw : e.isRaw = true) {body : List Char}
    (hbody : RawBody e.name.toList body) {m : Growth}
    (hm : (g.enter e e.name.toList).grow (rawTokens body) = .ok m) :
    m.Sound ∧ m.opened = (g.tree.size, e.name.toList) :: g.opened ∧
      ∀ o ∈ g.opened, m.tree.kind o.1 = g.tree.kind o.1 := by
  have henter := h.enter hp hread hleaf
  have hfill := h.put_body hp hread hleaf hraw hbody
  unfold rawTokens rawLexemes at hm
  split at hm
  · -- an empty body makes no text
    cases hm
    exact ⟨henter, rfl, fun o ho => h.kind_opened (.element e) ho⟩
  · cases hm
    refine ⟨hfill, rfl, fun o ho => ?_⟩
    rw [henter.kind_opened _ (List.mem_cons_of_mem _ ho)]
    exact h.kind_opened (.element e) ho

end

/-! ### A whole page -/

theorem readable_of_startTag {name attributes : List Char} {e : Element}
    (hr : (Token.startTag name attributes).ReadsBack)
    (he : elementOf name attributes false = .ok e) : e.Readable := by
  obtain ⟨hn, ha, hs⟩ := elementOf_eq_ok he
  constructor
  · rw [hn, ha, hs, String.toList_ofList, String.toList_ofList]
    exact he
  · rw [hs, if_neg Bool.false_ne_true, startTag_of_elementOf he]
    exact hr

/-- A token that stands for itself leaves the growth sound. -/
theorem Sound.addToken {g g' : Growth} {t : Token} (h : g.Sound) (hp : g.Plain)
    (hr : t.ReadsBack) (hn : t.rawTextName? = none) (ha : g.addToken t = .ok g') :
    g'.Sound ∧ g'.Plain := by
  rcases addToken_cases ha with ⟨k, hk, rfl⟩ | ⟨name, attributes, e, rfl, he, hv, rfl⟩ |
    ⟨name, id, opened, rfl, -, ho, rfl⟩
  · obtain ⟨hsound, hroot, hleaf⟩ := hk.sound hr
    apply h.put hp hsound hroot hleaf
    intro body hb
    subst hb
    cases hk with
    | text body =>
      rw [String.toList_ofList]
      exact bracket_not_mem_of_readsBack hr
    | rawText body => exact absurd hr (not_readsBack_rawText body)
  · obtain ⟨hname, -, hs⟩ := elementOf_eq_ok he
    have hlist : e.name.toList = name := by rw [hname, String.toList_ofList]
    have hleaf : e.isLeaf = false := by rw [Element.isLeaf, hv, hs]; rfl
    have hplain : e.isRaw = false := by
      simp only [Token.rawTextName?] at hn
      split at hn
      · cases hn
      · rename_i hraw
        rw [Element.isRaw, hname, Bool.eq_false_iff.2 hraw]
        rfl
    have henter := h.enter hp (readable_of_startTag hr he) hleaf
    rw [hlist] at henter
    refine ⟨henter, fun o ho => ?_⟩
    rcases List.mem_cons.1 ho with rfl | ho
    · show ((g.put (.element e)).tree.kind g.tree.size).isRaw = false
      rw [h.kind_put, if_pos rfl]
      exact hplain
    · show ((g.put (.element e)).tree.kind o.1).isRaw = false
      rw [h.kind_opened _ ho]
      exact hp o ho
  · refine ⟨h.close ho hr, fun o hm => ?_⟩
    exact hp o (by rw [ho]; exact List.mem_cons_of_mem _ hm)

theorem grow_append {g g' : Growth} {ts us : List Token} :
    g.grow (ts ++ us) = .ok g' ↔ ∃ m, g.grow ts = .ok m ∧ m.grow us = .ok g' := by
  rw [grow, List.foldlM_append]
  exact bind_eq_ok

/-- A script or style sheet is opened, filled and closed. -/
theorem Sound.addRaw {g g' : Growth} {name attributes body : List Char} (h : g.Sound)
    (hp : g.Plain) (hstart : (Token.startTag name attributes).ReadsBack)
    (hname : isRawTextName (String.ofList name) = true) (hbody : RawBody name body)
    (hstop : (Token.endTag name).ReadsBack)
    (ha : g.grow (.startTag name attributes :: (rawTokens body ++ [.endTag name])) = .ok g') :
    g'.Sound ∧ g'.Plain := by
  obtain ⟨m₁, h₁, hrest⟩ := grow_cons_ok.1 ha
  obtain ⟨m₂, h₂, hrest⟩ := grow_append.1 hrest
  obtain ⟨m₃, h₃, hrest⟩ := grow_cons_ok.1 hrest
  cases hrest
  have hnotVoid := isVoidName_of_isRawTextName hname
  -- the start tag enters an element
  rcases addToken_cases h₁ with ⟨k, hk, -⟩ | ⟨n, a, e, heq, he, hv, rfl⟩ |
    ⟨n, id, opened, heq, -⟩
  · cases hk with
    | voidTag he hv =>
      rw [Element.isVoid, (elementOf_eq_ok he).1] at hv
      exact absurd (hnotVoid.symm.trans hv) Bool.false_ne_true
  · cases heq
    obtain ⟨hn, -, hs⟩ := elementOf_eq_ok he
    have hlist : e.name.toList = name := by rw [hn, String.toList_ofList]
    have hleaf : e.isLeaf = false := by rw [Element.isLeaf, hv, hs]; rfl
    have hraw : e.isRaw = true := by rw [Element.isRaw, hn, hname, hs]; rfl
    have hread := readable_of_startTag hstart he
    -- the body makes at most one text in it
    subst hlist
    obtain ⟨hm₂, ho₂, hkind⟩ := h.fill hp hread hleaf hraw hbody h₂
    -- the end tag closes it
    rcases addToken_cases h₃ with ⟨k, hk, -⟩ | ⟨n', a', e', heq, -⟩ |
      ⟨n', id, opened, heq, -, ho, rfl⟩
    · cases hk with
      | voidEnd hv => exact absurd (hnotVoid.symm.trans hv) Bool.false_ne_true
    · cases heq
    · cases heq
      have hopened : g.opened = opened := by
        rw [ho₂] at ho
        exact (List.cons.inj ho).2
      refine ⟨hm₂.close ho hstop, fun o hm => ?_⟩
      have hmem : o ∈ g.opened := hopened ▸ hm
      exact (congrArg Kind.isRaw (hkind o hmem)).trans (hp o hmem)
  · cases heq

theorem sound_of_grow {ts : List Token} (hl : Legible ts) {g g' : Growth} (h : g.Sound)
    (hp : g.Plain) (hg : g.grow ts = .ok g') : g'.Sound ∧ g'.Plain := by
  induction hl generalizing g with
  | nil =>
    cases hg
    exact ⟨h, hp⟩
  | cons reads plain ends rest ih =>
    obtain ⟨m, hm, hrest⟩ := grow_cons_ok.1 hg
    obtain ⟨hs, hp'⟩ := h.addToken hp reads plain hm
    exact ih hs hp' hrest
  | @raw name attributes body ts start isRaw inner stop rest ih =>
    have hsplit : Token.startTag name attributes :: (rawTokens body ++ .endTag name :: ts) =
        (.startTag name attributes :: (rawTokens body ++ [.endTag name])) ++ ts := by
      simp
    rw [hsplit] at hg
    obtain ⟨m, hm, hrest⟩ := grow_append.1 hg
    obtain ⟨hs, hp'⟩ := h.addRaw hp start isRaw inner stop hm
    exact ih hs hp' hrest

end Growth

/-- Every tree that was read is sound. -/
theorem sound_of_parse {page : String} {t : Tree} (h : parse page = .ok t) : t.Sound := by
  obtain ⟨lost, g, he, hg, ho, rfl⟩ := parse_eq_ok.1 h
  have hs := (Growth.sound_of_grow (legible_scanFrom he) Growth.sound_start Growth.plain_start hg).1
  have htree := hs.tree
  rw [ho] at htree
  exact htree

end PageMend.Markup
