import PageMend.Proofs.Markup.Nesting

/-!
# The shape of a tree that was read

Every token of a page makes one node, but for the end tags that close an element, and the nodes are
numbered as their tokens stand on the page (`kinds_of_parse`). No text of a page is empty, and none
stands beside another: the forest that was read is the one that its own writing is read as, and
that is in normal form (`normal_of_parse`). `shape_of_parse` puts this together with what is known
of the children of each node.
-/

namespace PageMend.Markup

/-! ## The nodes that tokens make -/

/-- Whether a token is the tag with which an element begins. -/
def Token.isTag : Token → Bool
  | .startTag _ _ | .emptyTag _ _ => true
  | _ => false

/-- The node that a token makes. An end tag that closes an element makes none. -/
def Token.kind? (t : Token) : Option Kind :=
  match t with
  | .text body | .rawText body => some (.text (String.ofList body))
  | .comment _ | .cdata _ | .instruction _ | .doctype _ =>
    some (.markup (String.ofList t.spelling))
  | .startTag name attributes => (Growth.elementOf name attributes false).toOption.map .element
  | .emptyTag name attributes => (Growth.elementOf name attributes true).toOption.map .element
  | .endTag name =>
    if isVoidName (String.ofList name) then some (.markup (String.ofList t.spelling)) else none

namespace Growth

theorem Makes.kind? {t : Token} {k : Kind} (h : Makes t k) : t.kind? = some k := by
  cases h with
  | voidEnd hv => exact if_pos hv
  | emptyTag he => rw [Token.kind?, he]; rfl
  | voidTag he hv => rw [Token.kind?, he]; rfl
  | _ => rfl

/-- The nodes of a growth in the order in which they were made, without the root. -/
def kinds (g : Growth) : List Kind := (List.range' 1 (g.tree.size - 1)).map g.tree.kind

theorem kinds_put {g : Growth} (h : g.innermost < g.tree.size) (k : Kind) :
    (g.put k).kinds = g.kinds ++ [k] := by
  have hsize : (g.put k).tree.size = g.tree.size + 1 := Tree.size_appendChild _ h k
  have hkind : ∀ id, (g.put k).tree.kind id = if id = g.tree.size then k else g.tree.kind id :=
    Tree.kind_appendChild h k
  have hlast : 1 + (g.tree.size - 1) = g.tree.size := by omega
  have hn : g.tree.size + 1 - 1 = g.tree.size - 1 + 1 := by omega
  rw [kinds, hsize, hn, List.range'_1_concat, hlast, List.map_append, List.map_singleton, hkind,
    if_pos rfl, kinds]
  congr 1
  apply List.map_congr_left
  intro id hid
  have hlt := List.mem_range'_1.1 hid
  rw [hkind, if_neg (by omega)]

theorem kinds_addToken {g g' : Growth} {t : Token} (hlt : g.innermost < g.tree.size)
    (h : g.addToken t = .ok g') : g'.kinds = g.kinds ++ t.kind?.toList := by
  rcases addToken_cases h with ⟨k, hk, rfl⟩ | ⟨name, attributes, e, rfl, he, -, rfl⟩ |
    ⟨name, id, opened, rfl, hv, -, rfl⟩
  · rw [hk.kind?]
    exact kinds_put hlt k
  · have hkind : (Token.startTag name attributes).kind? = some (.element e) := by
      rw [Token.kind?, he]
      rfl
    rw [hkind]
    exact kinds_put hlt (.element e)
  · have hkind : (Token.endTag name).kind? = none := if_neg (Bool.eq_false_iff.1 hv)
    rw [hkind]
    exact (List.append_nil _).symm

theorem kinds_grow {g g' : Growth} {ts : List Token} {frames : List (Element × Forest Kind)}
    {here : Forest Kind} (hg : g.Shows frames here) (h : g.grow ts = .ok g') :
    g'.kinds = g.kinds ++ ts.filterMap Token.kind? := by
  induction ts generalizing g frames here with
  | nil =>
    cases h
    exact (List.append_nil _).symm
  | cons t ts ih =>
    obtain ⟨m, hm, hrest⟩ := grow_cons_ok.1 h
    obtain ⟨fs, f, hgrown, -⟩ := hg.grown
    obtain ⟨_, _, hshow, -⟩ := addToken_written hm hg
    rw [ih hshow hrest, kinds_addToken hgrown.innermost_lt hm, List.filterMap_cons,
      List.append_assoc]
    cases t.kind? <;> rfl

end Growth

/-- The nodes of a page in document order, told by its tokens. -/
theorem kinds_of_parse {page : String} {t : Tree} (h : parse page = .ok t) :
    (t.descendants Tree.root).map t.kind = (scan page).tokens.filterMap Token.kind? := by
  rw [descendants_of_parse h]
  obtain ⟨lost, g, -, hg, -, rfl⟩ := parse_eq_ok.1 h
  exact Growth.kinds_grow Growth.shows_start hg

/-- Each tag makes the element whose tag it is, and no other token makes an element. -/
theorem Token.tag_of_element {t : Token} (h : t.AttributesRead) :
    (t.kind?.bind Kind.element?).map Element.leafTag = if t.isTag then some t else none := by
  cases t with
  | startTag name attributes =>
    obtain ⟨e, he⟩ := Growth.exists_elementOf_iff.2 (show ∃ read, _ from h)
    rw [Token.kind?, he]
    show some e.leafTag = _
    rw [Element.leafTag, (Growth.elementOf_eq_ok he).2.2, Growth.startTag_of_elementOf he]
    rfl
  | emptyTag name attributes =>
    obtain ⟨e, he⟩ := Growth.exists_elementOf_iff.2 (show ∃ read, _ from h)
    rw [Token.kind?, he]
    show some e.leafTag = _
    rw [Element.leafTag, (Growth.elementOf_eq_ok he).2.2, Growth.emptyTag_of_elementOf he]
    rfl
  | endTag name =>
    rw [Token.kind?]
    split <;> rfl
  | _ => rfl

/-- The elements of a page in document order have the tags of the page, in order. -/
theorem tags_of_parse {page : String} {t : Tree} (h : parse page = .ok t) :
    ((t.descendants Tree.root).filterMap t.element?).map Element.leafTag =
      (scan page).tokens.filter Token.isTag := by
  obtain ⟨-, hread, -⟩ := (exists_parse_iff page).1.1 ⟨t, h⟩
  have helements : (t.descendants Tree.root).filterMap t.element? =
      ((t.descendants Tree.root).map t.kind).filterMap Kind.element? := by
    rw [List.filterMap_map]
    rfl
  rw [helements, kinds_of_parse h, List.filterMap_filterMap, List.map_filterMap,
    ← List.filterMap_eq_filter]
  apply List.filterMap_congr
  intro token ht
  rw [Token.tag_of_element (hread token ht), Option.guard]

/-! ## Texts -/

/-- A forest that its own writing is read as is in normal form. A mark in front of what is written
keeps the reader from taking one away that belongs to the page. -/
theorem normal_of_parse {page : String} {t : Tree} (h : parse page = .ok t) :
    (t.forest Tree.root).Normal := by
  have hsound := sound_of_parse h
  have hforest := hsound.shaped.forest_root (hsound.legibleBelow Tree.root)
  have hspell : t.serialize.toList = (t.forest Tree.root).normalize.spelling := by
    rw [Tree.toList_serialize hsound.root, Forest.spelling_normalize hforest]
  have hmarked : withoutMark (String.ofList ('\uFEFF' :: t.serialize.toList)).toList =
      (t.forest Tree.root).normalize.spelling := by
    rw [String.toList_ofList]
    exact hspell
  obtain ⟨t', hp, ht'⟩ := parse_of_spelling hforest.normalize (Forest.normal_normalize _) hmarked
  -- the page and what was written of it have the same tokens, so they are the same tree
  obtain ⟨lost, g, he, hg, ho, rfl⟩ := parse_eq_ok.1 h
  have hscan : scan (String.ofList ('\uFEFF' :: g.tree.serialize.toList)) =
      ⟨(scan page).tokens.map Token.written, .finished []⟩ := by
    rw [scan, String.toList_ofList, spelling_of_grow hg ho]
    exact scanFrom_spell (legible_scanFrom he)
  have htokens : (scan (String.ofList ('\uFEFF' :: g.tree.serialize.toList))).tokens =
      (scan page).tokens := by
    rw [hscan, Scan.tokens, List.map_map]
    exact List.map_id _
  have hsame := parse_eq_ok.2 ⟨[], g, by rw [hscan], by rw [htokens]; exact hg, ho, rfl⟩
  rw [hsame] at hp
  cases hp
  rw [ht']
  exact Forest.normal_normalize _

namespace Tree

/-- A row in normal form: its texts are not empty and do not stand side by side, and what lies below
its nodes is in normal form. -/
theorem normal_rowForest {t : Tree} {cs : List Nat} (h : (t.rowForest cs).Normal) :
    (cs.IsChain fun a b => t.text? a = none ∨ t.text? b = none) ∧
      ∀ c ∈ cs, t.text? c ≠ some "" ∧ (t.forest c).Normal := by
  induction cs with
  | nil => exact ⟨.nil, fun _ hc => nomatch hc⟩
  | cons c cs ih =>
    rw [rowForest_cons] at h
    -- the node itself, and a text only in front of a row that starts with none
    have hnode : (t.text? c ≠ some "" ∧ (t.forest c).Normal) ∧ (t.rowForest cs).Normal ∧
        (t.text? c = none ∨ (t.rowForest cs).startsText = false) := by
      generalize hk : t.kind c = k at h
      generalize hf : t.forest c = f at h
      rw [text?, hk]
      cases h with
      | text nonempty apart rest =>
        exact ⟨⟨fun he => nonempty (Option.some.inj he), .nil⟩, rest, .inr apart⟩
      | node other inner rest =>
        rw [other]
        have hother : (none : Option String) ≠ some "" := nofun
        exact ⟨⟨hother, inner⟩, rest, .inl rfl⟩
    obtain ⟨hc, hrest, hapart⟩ := hnode
    obtain ⟨hchain, hcs⟩ := ih hrest
    refine ⟨?_, List.forall_mem_cons.2 ⟨hc, hcs⟩⟩
    cases cs with
    | nil => exact .singleton c
    | cons d ds =>
      refine List.isChain_cons_cons.2 ⟨hapart.imp_right fun hd => ?_, hchain⟩
      rw [rowForest_cons] at hd
      unfold text?
      cases hk : t.kind d with
      | text body =>
        rw [hk] at hd
        cases hd
      | _ => rfl

theorem normal_forest {t : Tree} (h : (t.forest root).Normal) {id : Nat}
    (hid : id = root ∨ id ∈ t.descendants root) : (t.forest id).Normal := by
  induction id using Nat.strongRecOn with
  | ind id ih =>
    rcases hid with rfl | hid
    · exact h
    · obtain ⟨p, hp, hc⟩ := mem_descendants_iff.1 hid
      have hnormal := ih p (lt_of_mem_children hc).1 hp
      rw [forest_eq] at hnormal
      exact ((normal_rowForest hnormal).2 id hc).2

end Tree

/-- In a tree that was read, the nodes are numbered in document order and none is apart from the
page. Texts, markup, void elements and those that are their own end tag have no children, and a
script or style sheet has at most one, which is a text. No text is empty or stands beside another.
The elements have the tags of the page, one each and in order; what stands in a script or style
sheet is no tag. -/
theorem shape_of_parse {page : String} {t : Tree} (h : parse page = .ok t) :
    t.descendants Tree.root = List.range' 1 (t.size - 1) ∧
      (∀ id, (t.kind id).isLeaf = true → t.children id = []) ∧
      (∀ id, (t.kind id).isRaw = true →
        t.children id = [] ∨ ∃ c body, t.children id = [c] ∧ t.kind c = .text body) ∧
      (∀ id body, t.kind id = .text body → body ≠ "") ∧
      (∀ id, (t.children id).IsChain fun a b => t.text? a = none ∨ t.text? b = none) ∧
      ((t.descendants Tree.root).filterMap t.element?).map Element.leafTag =
        (scan page).tokens.filter Token.isTag := by
  have hall := descendants_of_parse h
  have hshaped := (sound_of_parse h).shaped
  have hnormal := normal_of_parse h
  have hon : ∀ id < t.size, id = Tree.root ∨ id ∈ t.descendants Tree.root := by
    intro id hid
    rw [hall, List.mem_range'_1, Tree.root]
    omega
  have hrow : ∀ id < t.size, (t.rowForest (t.children id)).Normal := by
    intro id hid
    rw [← Tree.forest_eq]
    exact Tree.normal_forest hnormal (hon id hid)
  refine ⟨hall, fun id => hshaped.childless, fun id => hshaped.filled, ?_, ?_, tags_of_parse h⟩
  · intro id body hk
    have hlt : id < t.size := Tree.lt_size_of_kind_ne (by rw [hk]; exact Kind.noConfusion)
    rcases hon id hlt with rfl | hid
    · rw [hshaped.root] at hk
      cases hk
    · obtain ⟨p, -, hc⟩ := Tree.mem_descendants_iff.1 hid
      have hp : p < t.size := Nat.lt_trans (Tree.lt_of_mem_children hc).1 hlt
      have hne := ((Tree.normal_rowForest (hrow p hp)).2 id hc).1
      rw [Tree.text?, hk] at hne
      exact fun he => hne (congrArg some he)
  · intro id
    by_cases hlt : id < t.size
    · exact (Tree.normal_rowForest (hrow id hlt)).1
    · rw [Tree.children_eq_nil (Nat.le_of_not_lt hlt)]
      exact .nil

/-- A page with two marks at its start, an element that is its own end, and a script that holds a
tag. -/
theorem shape_of_script :
    ∃ t, parse "\uFEFF\uFEFF<P>a<br/></P><script>b<i></script>" = .ok t ∧
      t.descendants Tree.root = [1, 2, 3, 4, 5, 6] ∧
      ((t.descendants Tree.root).filterMap t.element?).map Element.leafTag =
        [.startTag ['P'] [], .emptyTag "br".toList [], .startTag "script".toList []] := by
  have hw : ((parse "\uFEFF\uFEFF<P>a<br/></P><script>b<i></script>").toOption.map Tree.size) =
      some 7 := by decide +kernel
  obtain ⟨t, ht, hsize⟩ := exists_ok_of_map hw
  obtain ⟨hall, -, -, -, -, htags⟩ := shape_of_parse ht
  rw [hsize] at hall
  exact ⟨t, ht, hall, htags.trans (by decide +kernel)⟩

end PageMend.Markup
