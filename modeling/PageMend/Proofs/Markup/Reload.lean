import PageMend.Proofs.Markup.Normal

/-!
# Loading what was written

A tree whose texts can be read where they are is written as a text that can be read again, and the
reader finds its forest in normal form (`parse_serialize_of_legible`). The tokens of a forest in
normal form are one for each tag, text and piece of markup; written one behind the other they can be
told apart, because no text stands beside another (`Sound.exists_tokens`), and added to a tree they
grow just this forest.

A mark at the start of what was written is not read. It can only be the first character of a text
at the start of the page, so no element is missed (`exists_unmarked`).
-/

namespace PageMend.Markup

/-! ## Lists of tokens -/

/-- Tokens that can be told from their spelling may stand in front of a tag. -/
theorem Legible.append {ts us : List Token} (h : Legible ts) (ht : AtTag (spell us))
    (hu : Legible us) : Legible (ts ++ us) := by
  induction h with
  | nil => exact hu
  | cons reads plain ends _ ih =>
    rw [← List.append_nil (spell _)] at ends
    refine .cons reads plain ?_ ih
    show Token.EndsAt _ (spell (_ ++ us))
    rw [spell_append]
    exact ends.append ht
  | raw start isRaw inner stop _ ih =>
    have happ := Legible.raw start isRaw inner stop ih
    simpa using happ

namespace Growth

theorem Makes.addToken {t : Token} {k : Kind} (h : Makes t k) (g : Growth) :
    g.addToken t = .ok (g.put k) := by
  cases h with
  | voidEnd hv => exact if_pos hv
  | emptyTag he => simp only [Growth.addToken, he]
  | voidTag he hv =>
    simp only [Growth.addToken, he]
    rw [if_pos hv]
  | _ => rfl

theorem addToken_startTag {name attributes : List Char} {e : Element}
    (he : elementOf name attributes false = .ok e) (hv : e.isVoid = false) (g : Growth) :
    g.addToken (.startTag name attributes) = .ok (g.enter e name) := by
  simp only [Growth.addToken, he]
  rw [if_neg (Bool.eq_false_iff.1 hv)]
  rfl

theorem addToken_endTag {g : Growth} {id : Nat} {name : List Char}
    {opened : List (Nat × List Char)} (ho : g.opened = (id, name) :: opened)
    (hv : isVoidName (String.ofList name) = false) :
    g.addToken (.endTag name) = .ok { g with opened } := by
  simp only [Growth.addToken]
  rw [if_neg (Bool.eq_false_iff.1 hv)]
  simp only [ho, if_true]

end Growth

/-! ## The tokens of an element -/

namespace Element

/-- The tag of an element without content. -/
def leafTag (e : Element) : Token := if e.selfClosing then e.emptyTag else e.startTag

theorem Readable.makes {e : Element} (h : e.Readable) (hl : e.isLeaf = true) :
    Growth.Makes e.leafTag (.element e) ∧ e.leafTag.rawTextName? = none := by
  have hreads := h.reads
  unfold leafTag
  cases hs : e.selfClosing with
  | true =>
    rw [hs] at hreads
    exact ⟨.emptyTag hreads, rfl⟩
  | false =>
    rw [hs] at hreads
    have hv : e.isVoid = true := by
      rw [isLeaf, hs, Bool.or_false] at hl
      exact hl
    refine ⟨.voidTag hreads hv, if_neg fun hr => ?_⟩
    rw [String.ofList_toList] at hr
    exact absurd ((isVoidName_of_isRawTextName hr).symm.trans hv) Bool.false_ne_true

variable {e : Element}

theorem not_of_isLeaf (hl : e.isLeaf = false) : e.isVoid = false ∧ e.selfClosing = false := by
  rwa [isLeaf, Bool.or_eq_false_iff] at hl

theorem Readable.startTag (h : e.Readable) (hl : e.isLeaf = false) : e.startTag.ReadsBack := by
  have htag := h.tag
  rwa [(not_of_isLeaf hl).2, if_neg Bool.false_ne_true] at htag

/-- An element with content is written with both its tags. -/
theorem spelling_of_isLeaf (hl : e.isLeaf = false) (childless : Bool) (content : List Char) :
    e.spelling childless content = e.startTag.spelling ++ content ++ e.endTag.spelling := by
  obtain ⟨hv, hs⟩ := not_of_isLeaf hl
  simp [spelling, hv, hs]

theorem rawTextName?_startTag (hl : e.isLeaf = false) :
    e.startTag.rawTextName? = if e.isRaw then some e.name.toList else none := by
  rw [isRaw, (not_of_isLeaf hl).2, Bool.not_false, Bool.and_true]
  show (if isRawTextName (String.ofList e.name.toList) = true then _ else _) = _
  rw [String.ofList_toList]

/-- The tokens of an element grow it, if those between its tags grow its content. -/
theorem Readable.grow (h : e.Readable) (hl : e.isLeaf = false) {ts : List Token}
    (us : List Token) {g : Growth} {frames : List (Element × Forest Kind)}
    {here content : Forest Kind} (hg : g.Shows frames here)
    (hts : ∀ g : Growth, g.Shows ((e, here) :: frames) .nil →
      ∃ g', g.grow ts = .ok g' ∧ g'.Shows ((e, here) :: frames) content) :
    ∃ g' : Growth, g'.Shows frames (here ++ .node (.element e) content .nil) ∧
      g.grow (e.startTag :: (ts ++ e.endTag :: us)) = g'.grow us := by
  obtain ⟨hv, hs⟩ := not_of_isLeaf hl
  have hreads := h.reads
  rw [hs] at hreads
  obtain ⟨m, hm, hshow⟩ := hts (g.enter e e.name.toList) (hg.open hv hs)
  obtain ⟨id, opened, ho, hclose⟩ := hshow.close
  have hname : isVoidName (String.ofList e.name.toList) = false := by
    rw [String.ofList_toList]
    exact hv
  refine ⟨_, hclose, ?_⟩
  calc g.grow (e.startTag :: (ts ++ e.endTag :: us))
      = (g.enter e e.name.toList).grow (ts ++ e.endTag :: us) := by
        rw [Growth.grow, List.foldlM_cons]
        show g.addToken (.startTag _ _) >>= _ = _
        rw [Growth.addToken_startTag hreads hv]
        rfl
    _ = m.grow (e.endTag :: us) := by
        rw [Growth.grow, List.foldlM_append]
        show (g.enter e e.name.toList).grow ts >>= _ = _
        rw [hm]
        rfl
    _ = Growth.grow { m with opened } us := by
        rw [Growth.grow, List.foldlM_cons]
        show m.addToken (.endTag _) >>= _ = _
        rw [Growth.addToken_endTag ho hname]
        rfl

end Element

/-! ## The tokens of a forest -/

namespace Forest

/-- A row that starts with no text starts with a tag. -/
theorem Sound.atTag {f : Forest Kind} (h : Sound f) (hf : f.startsText = false) :
    AtTag f.spelling := by
  have htag : ∀ {t : Token}, t.isCharacters = false → ∀ rest, AtTag (t.spelling ++ rest) := by
    intro t ht rest
    obtain ⟨tail, hs⟩ := Token.spelling_of_isCharacters ht
    rw [hs]
    exact (atTag_cons _ _).2 rfl
  have helement : ∀ (e : Element) (content next : Forest Kind),
      AtTag (node (.element e) content next).spelling := by
    intro e content next
    show AtTag (e.spelling _ _ ++ _)
    unfold Element.spelling
    split
    · exact htag rfl _
    · split
      · exact htag rfl _
      · rw [List.append_assoc, List.append_assoc]
        exact htag rfl _
  cases h with
  | nil => exact atTag_nil
  | text => cases hf
  | @markup s next t reads makes rest =>
    have hs : s.toList = t.spelling := makes.spelling
    show AtTag (s.toList ++ _)
    rw [hs]
    refine htag ?_ _
    cases makes <;> rfl
  | leaf => exact helement _ _ _
  | element => exact helement _ _ _
  | raw => exact helement _ _ _

/-- The tokens are written as the forest, and grow it wherever they are added. -/
structure Builds (ts : List Token) (f : Forest Kind) : Prop where
  spelling : spell ts = f.spelling
  grows : ∀ (g : Growth) frames here, g.Shows frames here →
    ∃ g', g.grow ts = .ok g' ∧ g'.Shows frames (here ++ f)

theorem Builds.nil : Builds [] nil where
  spelling := rfl
  grows g frames here hg := by
    refine ⟨g, rfl, ?_⟩
    rw [append_nil]
    exact hg

/-- A node that one token makes, in front of a row. -/
theorem Builds.cons {t : Token} {k : Kind} {ts : List Token} {next : Forest Kind}
    (hm : Growth.Makes t k) (h : Builds ts next) : Builds (t :: ts) (node k .nil next) where
  spelling := by
    rw [spell_cons, h.spelling, ← hm.spelling]
    rfl
  grows g frames here hg := by
    obtain ⟨g', hg', hshow⟩ := h.grows _ _ _ (hg.put k)
    refine ⟨g', Growth.grow_cons_ok.2 ⟨_, hm.addToken g, hg'⟩, ?_⟩
    rw [append_assoc] at hshow
    exact hshow

/-- An element around its content, in front of a row. -/
theorem Builds.element {e : Element} {ts us : List Token} {content next : Forest Kind}
    (hread : e.Readable) (hleaf : e.isLeaf = false) (hts : Builds ts content)
    (hus : Builds us next) :
    Builds (e.startTag :: (ts ++ e.endTag :: us)) (node (.element e) content next) where
  spelling := by
    show _ = e.spelling _ _ ++ next.spelling
    rw [Element.spelling_of_isLeaf hleaf, spell_cons, spell_append, spell_cons, hts.spelling,
      hus.spelling]
    simp only [List.append_assoc]
  grows g frames here hg := by
    obtain ⟨m, hm, hgrow⟩ := hread.grow hleaf us hg fun g hg => hts.grows g _ _ hg
    obtain ⟨g', hg', hshow⟩ := hus.grows m _ _ hm
    refine ⟨g', hgrow.trans hg', ?_⟩
    rw [append_assoc] at hshow
    exact hshow

/-- The body of a script or style sheet is one text, or none if it is empty. -/
theorem builds_rawTokens {body : List Char} {content : Forest Kind} (hn : Normal content)
    (holds : content = nil ∧ body = [] ∨ content = leaf (.text (String.ofList body))) :
    Builds (rawTokens body) content := by
  rcases holds with ⟨rfl, rfl⟩ | rfl
  · exact .nil
  · have hne : body ≠ [] := by
      rintro rfl
      cases hn with
      | text nonempty => exact nonempty rfl
      | node other => cases other
    have htokens : rawTokens body = [.rawText body] := by
      rw [rawTokens, rawLexemes, if_neg hne]
      rfl
    rw [htokens]
    exact .cons (.rawText body) .nil

/-- A node that one token makes, in front of a row whose tokens are known. -/
theorem exists_tokens_cons {t : Token} {k : Kind} {next : Forest Kind} (hr : t.ReadsBack)
    (hm : Growth.Makes t k) (hn : t.rawTextName? = none) (he : t.EndsAt next.spelling)
    (hnext : ∃ ts, Legible ts ∧ Builds ts next) :
    ∃ ts, Legible ts ∧ Builds ts (node k nil next) := by
  obtain ⟨ts, hl, hts⟩ := hnext
  exact ⟨t :: ts, .cons hr hn (hts.spelling ▸ he) hl, .cons hm hts⟩

/-- A forest in normal form is written as tokens that can be told apart and that grow it. -/
theorem Sound.exists_tokens {f : Forest Kind} (h : Sound f) (hn : Normal f) :
    ∃ ts, Legible ts ∧ Builds ts f := by
  induction h with
  | nil => exact ⟨[], .nil, .nil⟩
  | @text body next plain rest ih =>
    cases hn with
    | text nonempty apart hrest =>
      have hne : body.toList ≠ [] := fun he => nonempty (String.toList_eq_nil_iff.1 he)
      have hmakes : Growth.Makes (.text body.toList) (.text body) := by
        have := Growth.Makes.text body.toList
        rwa [String.ofList_toList] at this
      exact exists_tokens_cons (readsBack_text hne plain) hmakes rfl (rest.atTag apart) (ih hrest)
    | node other => cases other
  | @markup s next t reads makes rest ih =>
    cases hn with
    | node _ _ hrest =>
      have hplain : t.rawTextName? = none ∧ t.isCharacters = false := by
        cases makes <;> exact ⟨rfl, rfl⟩
      exact exists_tokens_cons reads makes hplain.1 (Token.endsAt_of_isCharacters hplain.2 _)
        (ih hrest)
  | @leaf e next reads isLeaf rest ih =>
    cases hn with
    | node _ _ hrest =>
      obtain ⟨hmakes, hplain⟩ := reads.makes isLeaf
      have hends : e.leafTag.EndsAt next.spelling := by
        unfold Element.leafTag
        split <;> trivial
      exact exists_tokens_cons reads.tag hmakes hplain hends (ih hrest)
  | @element e content next reads stop isLeaf plain inner rest ihc ihn =>
    cases hn with
    | node _ hcontent hrest =>
      obtain ⟨ts, hl, hts⟩ := ihc hcontent
      obtain ⟨us, hlu, hus⟩ := ihn hrest
      have hstart : e.startTag.rawTextName? = none := by
        rw [Element.rawTextName?_startTag isLeaf, plain]
        rfl
      have hend : Legible (e.endTag :: us) := .cons stop rfl trivial hlu
      have hat : AtTag (spell (e.endTag :: us)) := (atTag_cons _ _).2 rfl
      exact ⟨_, .cons (reads.startTag isLeaf) hstart trivial (hl.append hat hend),
        .element reads isLeaf hts hus⟩
  | @raw e content next body reads stop isLeaf isRaw inner holds rest ih =>
    cases hn with
    | node _ hcontent hrest =>
      obtain ⟨us, hlu, hus⟩ := ih hrest
      have hname : isRawTextName (String.ofList e.name.toList) = true := by
        rw [String.ofList_toList]
        exact (Bool.and_eq_true_iff.1 isRaw).1
      exact ⟨_, .raw (reads.startTag isLeaf) hname inner stop hlu,
        .element reads isLeaf (builds_rawTokens hcontent holds) hus⟩

/-- What is read without a mark at its start is a forest with the same elements. -/
theorem exists_unmarked {f : Forest Kind} (h : Sound f) (hn : Normal f) :
    ∃ f', Sound f' ∧ Normal f' ∧ f'.spelling = withoutMark f.spelling ∧
      f'.elements = f.elements ∧ (f.spelling.head? ≠ some '\uFEFF' → f' = f) := by
  by_cases hmark : f.spelling.head? = some '\uFEFF'
  · have hf : f.startsText = true := by
      cases hf : f.startsText with
      | true => rfl
      | false => exact absurd (h.atTag hf '\uFEFF' hmark) (by decide)
    cases hn with
    | nil => cases hf
    | @text body next nonempty apart hrest =>
      cases h with
      | text plain rest =>
        obtain ⟨c, cs, hcs⟩ := List.exists_cons_of_ne_nil
          (show body.toList ≠ [] from fun he => nonempty (String.toList_eq_nil_iff.1 he))
        have hspell : (Forest.node (.text body) nil next).spelling =
            c :: (cs ++ next.spelling) := by
          show body.toList ++ _ = _
          rw [hcs]
          rfl
        rw [hspell] at hmark ⊢
        obtain rfl : c = '\uFEFF' := Option.some.inj hmark
        -- without the mark the text may be empty, and then it makes no node
        by_cases hnil : cs = []
        · subst hnil
          exact ⟨next, rest, hrest, rfl, rfl, fun hne => absurd rfl hne⟩
        · have hne : String.ofList cs ≠ "" := fun he => hnil (String.ofList_eq_empty_iff.1 he)
          have hplain : '<' ∉ (String.ofList cs).toList := by
            rw [String.toList_ofList]
            exact fun hm => plain (hcs ▸ List.mem_cons_of_mem _ hm)
          refine ⟨node (.text (String.ofList cs)) nil next, .text hplain rest,
            .text hne apart hrest, ?_, rfl, fun hne => absurd rfl hne⟩
          show (String.ofList cs).toList ++ _ = _
          rw [String.toList_ofList]
          rfl
    | @node k content next other _ _ =>
      cases k with
      | text body => cases other
      | _ => cases hf
  · refine ⟨f, h, hn, ?_, rfl, fun _ => rfl⟩
    unfold withoutMark
    split
    · rename_i hs
      rw [hs] at hmark
      exact absurd rfl hmark
    · rfl

end Forest

/-! ## From a tree to its forest and back -/

namespace Tree

theorem rawBody_nil (name : List Char) : RawBody name [] := fun _ he => readBody_of_end he

theorem forest_eq_nil {t : Tree} {id : Nat} (h : t.children id = []) : t.forest id = .nil := by
  rw [forest, content_eq, h]
  rfl

/-- The one text of a script or style sheet is its content. -/
theorem forest_of_raw {t : Tree} (h : t.Shaped) {c d : Nat} {body : String}
    (hone : t.children c = [d]) (hkd : t.kind d = .text body) :
    t.forest c = .leaf (.text body) := by
  have hd : t.forest d = .nil := forest_eq_nil (h.childless (by rw [hkd]; rfl))
  rw [Tree.forest, content_eq, hone]
  show Forest.node (t.kind d) (t.forest d) .nil = _
  rw [hkd, hd]
  rfl

/-- A child and what lies below it, in front of the children behind it. -/
theorem Shaped.node {t : Tree} (h : t.Shaped) {p c : Nat} (ht : t.LegibleBelow p)
    (hc : c ∈ t.children p) (hr : (t.kind p).isRaw = false) {rest : Forest Kind}
    (hrest : rest.Sound)
    (hinner : (t.kind c).isLeaf = false → (t.kind c).isRaw = false → (t.forest c).Sound) :
    (Forest.node (t.kind c) (t.forest c) rest).Sound := by
  have hkind := h.kinds c
  have hnil : (t.kind c).isLeaf = true → t.forest c = .nil := fun hl =>
    forest_eq_nil (h.childless hl)
  cases hk : t.kind c with
  | root => exact absurd hk (h.inner hc)
  | text body =>
    rw [hnil (by rw [hk]; rfl)]
    exact .text ((Kind.holds_iff_of_plain hr body).1 (ht p (.inl rfl) c hc body hk)) hrest
  | markup s =>
    rw [hk] at hkind
    obtain ⟨tok, hreads, hmakes⟩ := hkind
    rw [hnil (by rw [hk]; rfl)]
    exact .markup hreads hmakes hrest
  | element e =>
    have hchild := ht.child hc c (.inl rfl)
    have hfilled : (t.kind c).isRaw = true → t.children c = [] ∨
        ∃ d body, t.children c = [d] ∧ t.kind d = .text body := h.filled
    rw [hk] at hkind hinner hchild hfilled
    cases hleaf : e.isLeaf with
    | true =>
      rw [hnil (by rw [hk]; exact hleaf)]
      exact .leaf hkind hleaf hrest
    | false =>
      have hstop := h.stop hk hleaf List.not_mem_nil
      cases hraw : e.isRaw with
      | false => exact .element hkind hstop hleaf hraw (hinner hleaf hraw) hrest
      | true =>
        rcases hfilled hraw with hchildren | ⟨d, body, hone, hkd⟩
        · exact .raw hkind hstop hleaf hraw (rawBody_nil _)
            (.inl ⟨forest_eq_nil hchildren, rfl⟩) hrest
        · have hbody := hchild d (by rw [hone]; exact List.mem_singleton.2 rfl) body hkd
          rw [Kind.holds_iff_of_isRaw hraw] at hbody
          refine .raw hkind hstop hleaf hraw hbody (.inr ?_) hrest
          rw [String.ofList_toList, forest_of_raw h hone hkd]

/-- What lies below a node, if its texts can be read where they are. -/
theorem Shaped.forest {t : Tree} (h : t.Shaped) {id : Nat} (ht : t.LegibleBelow id)
    (hl : (t.kind id).isLeaf = false) (hr : (t.kind id).isRaw = false) : (t.forest id).Sound := by
  induction id using induction_children (t := t) with
  | step id ih =>
    have hrow : ∀ cs ⊆ t.children id, ((Forest.row t.content cs).map t.kind).Sound := by
      intro cs
      induction cs with
      | nil => exact fun _ => .nil
      | cons c cs ihc =>
        intro hsub
        obtain ⟨hc, hcs⟩ := List.cons_subset.1 hsub
        exact h.node ht hc hr (ihc hcs) (ih c hc (ht.child hc))
    rw [Tree.forest, content_eq]
    exact hrow _ (List.Subset.refl _)

theorem Shaped.forest_root {t : Tree} (h : t.Shaped) (ht : t.LegibleBelow root) :
    (t.forest root).Sound :=
  h.forest ht (by rw [h.root]; rfl) (by rw [h.root]; rfl)

end Tree

/-- A text that is written as a forest in normal form is read as that forest. -/
theorem parse_of_spelling {f : Forest Kind} (h : f.Sound) (hn : f.Normal) {page : String}
    (hp : withoutMark page.toList = f.spelling) :
    ∃ t, parse page = .ok t ∧ t.forest Tree.root = f := by
  obtain ⟨ts, hl, hs, hgrow⟩ := h.exists_tokens hn
  obtain ⟨g, hg, hshow⟩ := hgrow _ _ _ Growth.shows_start
  have hscan : scan page = ⟨ts.map Token.written, .finished []⟩ := by
    rw [scan, hp, ← hs]
    exact scanFrom_spell hl
  have htokens : (scan page).tokens = ts := by
    rw [hscan, Scan.tokens, List.map_map]
    exact List.map_id _
  have hopened : g.opened = [] := List.map_eq_nil_iff.1 hshow.names
  refine ⟨g.tree, parse_eq_ok.2 ⟨[], g, by rw [hscan], by rw [htokens]; exact hg, hopened, rfl⟩, ?_⟩
  exact hshow.forest.2

/-- What a tree is written as is read again, as a tree with the same elements, if the texts in the
tree can be read where they are. Unless there is a mark at its start, the reader finds the forest of
the tree in normal form. -/
theorem parse_serialize_of_legible {t : Tree} (h : t.Shaped) (ht : t.LegibleBelow Tree.root) :
    ∃ t', parse t.serialize = .ok t' ∧
      (t'.forest Tree.root).elements = (t.forest Tree.root).normalize.elements ∧
      t'.serialize.toList = withoutMark t.serialize.toList ∧
      (t.serialize.toList.head? ≠ some '\uFEFF' →
        t'.forest Tree.root = (t.forest Tree.root).normalize) := by
  have hforest := h.forest_root ht
  have hspell : t.serialize.toList = (t.forest Tree.root).normalize.spelling := by
    rw [Tree.toList_serialize h.root, Forest.spelling_normalize hforest]
  obtain ⟨f, hsound, hnormal, hf, helements, hsame⟩ :=
    Forest.exists_unmarked hforest.normalize (Forest.normal_normalize _)
  have hpage : withoutMark t.serialize.toList = f.spelling := by rw [hspell, hf]
  obtain ⟨t', hp, ht'⟩ := parse_of_spelling hsound hnormal hpage
  refine ⟨t', hp, by rw [ht', helements], ?_, fun hmark => ?_⟩
  · rw [Tree.toList_serialize (sound_of_parse hp).root, ht', hf, hspell]
  · rw [ht']
    exact hsame (by rwa [← hspell])

end PageMend.Markup
