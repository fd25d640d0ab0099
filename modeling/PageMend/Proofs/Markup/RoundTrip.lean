import PageMend.Proofs.Markup.Growth

/-!
# Reading and writing a page

A page that was read is written token by token: nothing is lost, doubled or moved
(`serialize_of_parse`). Reading what was written finds the same tree again (`parse_serialize`),
so two pages that are written alike are the same tree.

`addToken_cases` says all that adding a token can do.
-/

namespace PageMend.Markup

/-- Two steps go well if the first does, and the second does with what the first found. -/
theorem bind_eq_ok {ε α β : Type} {x : Except ε α} {f : α → Except ε β} {b : β} :
    x >>= f = .ok b ↔ ∃ a, x = .ok a ∧ f a = .ok b := by
  constructor
  · intro h
    cases x with
    | error e => cases h
    | ok a => exact ⟨a, rfl, h⟩
  · rintro ⟨a, rfl, h⟩
    exact h

theorem eq_ok_of_toOption {ε α : Type} {x : Except ε α} {a : α} (h : x.toOption = some a) :
    x = .ok a := by
  cases x with
  | error e => cases h
  | ok b =>
    cases h
    rfl

theorem exists_ok_of_map {ε α β : Type} {x : Except ε α} {f : α → β} {b : β}
    (h : x.toOption.map f = some b) : ∃ a, x = .ok a ∧ f a = b := by
  obtain ⟨a, ha, hb⟩ := Option.map_eq_some_iff.1 h
  exact ⟨a, eq_ok_of_toOption ha, hb⟩

theorem exists_ok_of_bind {ε α β : Type} {x : Except ε α} {f : α → Option β} {b : β}
    (h : x.toOption.bind f = some b) : ∃ a, x = .ok a ∧ f a = some b := by
  obtain ⟨a, ha, hb⟩ := Option.bind_eq_some_iff.1 h
  exact ⟨a, eq_ok_of_toOption ha, hb⟩

namespace Growth

/-! ## What a token does -/

/-- The node that a token makes, if it opens and closes nothing. -/
inductive Makes : Token → Kind → Prop
  | text (body : List Char) : Makes (.text body) (.text (String.ofList body))
  | rawText (body : List Char) : Makes (.rawText body) (.text (String.ofList body))
  | comment (body : List Char) :
    Makes (.comment body) (.markup (String.ofList (Token.comment body).spelling))
  | cdata (body : List Char) :
    Makes (.cdata body) (.markup (String.ofList (Token.cdata body).spelling))
  | instruction (body : List Char) :
    Makes (.instruction body) (.markup (String.ofList (Token.instruction body).spelling))
  | doctype (body : List Char) :
    Makes (.doctype body) (.markup (String.ofList (Token.doctype body).spelling))
  | voidEnd {name : List Char} (isVoid : isVoidName (String.ofList name) = true) :
    Makes (.endTag name) (.markup (String.ofList (Token.endTag name).spelling))
  | emptyTag {name attributes : List Char} {e : Element}
    (reads : elementOf name attributes true = .ok e) :
    Makes (.emptyTag name attributes) (.element e)
  | voidTag {name attributes : List Char} {e : Element}
    (reads : elementOf name attributes false = .ok e) (isVoid : e.isVoid = true) :
    Makes (.startTag name attributes) (.element e)

/-- The growth in which an element was put and is open. -/
def enter (g : Growth) (e : Element) (name : List Char) : Growth :=
  { g.put (.element e) with opened := (g.tree.size, name) :: g.opened }

/-- A token puts a node, opens an element or closes one. -/
theorem addToken_cases {g g' : Growth} {t : Token} (h : g.addToken t = .ok g') :
    (∃ k, Makes t k ∧ g' = g.put k) ∨
      (∃ name attributes e, t = .startTag name attributes ∧
        elementOf name attributes false = .ok e ∧ e.isVoid = false ∧ g' = g.enter e name) ∨
      ∃ name id opened, t = .endTag name ∧ isVoidName (String.ofList name) = false ∧
        g.opened = (id, name) :: opened ∧ g' = { g with opened } := by
  cases t with
  | text body => cases h; exact .inl ⟨_, .text body, rfl⟩
  | rawText body => cases h; exact .inl ⟨_, .rawText body, rfl⟩
  | comment body => cases h; exact .inl ⟨_, .comment body, rfl⟩
  | cdata body => cases h; exact .inl ⟨_, .cdata body, rfl⟩
  | instruction body => cases h; exact .inl ⟨_, .instruction body, rfl⟩
  | doctype body => cases h; exact .inl ⟨_, .doctype body, rfl⟩
  | startTag name attributes =>
    simp only [addToken] at h
    split at h
    · cases h
    · rename_i e he
      cases hv : e.isVoid with
      | true =>
        rw [hv, if_pos rfl] at h
        cases h
        exact .inl ⟨_, .voidTag he hv, rfl⟩
      | false =>
        rw [hv, if_neg Bool.false_ne_true] at h
        cases h
        exact .inr (.inl ⟨name, attributes, e, rfl, he, hv, rfl⟩)
  | emptyTag name attributes =>
    simp only [addToken] at h
    split at h
    · cases h
    · rename_i e he
      cases h
      exact .inl ⟨_, .emptyTag he, rfl⟩
  | endTag name =>
    simp only [addToken] at h
    split at h
    · rename_i hv
      cases h
      exact .inl ⟨_, .voidEnd hv, rfl⟩
    · rename_i hv
      split at h
      · cases h
      · rename_i id expected opened ho
        split at h
        · rename_i hn
          cases h
          subst hn
          exact .inr (.inr ⟨_, id, opened, rfl, Bool.eq_false_iff.2 hv, ho, rfl⟩)
        · cases h

theorem elementOf_eq_ok {name attributes : List Char} {selfClosing : Bool} {e : Element}
    (h : elementOf name attributes selfClosing = .ok e) :
    e.name = String.ofList name ∧ e.attributes = String.ofList attributes ∧
      e.selfClosing = selfClosing := by
  unfold elementOf at h
  cases hr : readAttributes name attributes with
  | error fault => rw [hr] at h; cases h
  | ok read =>
    rw [hr] at h
    cases h
    exact ⟨rfl, rfl, rfl⟩

theorem startTag_of_elementOf {name attributes : List Char} {selfClosing : Bool} {e : Element}
    (h : elementOf name attributes selfClosing = .ok e) :
    e.startTag = .startTag name attributes := by
  obtain ⟨hn, ha, -⟩ := elementOf_eq_ok h
  rw [Element.startTag, hn, ha, String.toList_ofList, String.toList_ofList]

theorem emptyTag_of_elementOf {name attributes : List Char} {selfClosing : Bool} {e : Element}
    (h : elementOf name attributes selfClosing = .ok e) :
    e.emptyTag = .emptyTag name attributes := by
  obtain ⟨hn, ha, -⟩ := elementOf_eq_ok h
  rw [Element.emptyTag, hn, ha, String.toList_ofList, String.toList_ofList]

/-- A node without children is spelled as the token that made it. -/
theorem Makes.spelling {t : Token} {k : Kind} (h : Makes t k) :
    k.spelling true [] = t.spelling := by
  cases h with
  | emptyTag he =>
    have hs := (elementOf_eq_ok he).2.2
    simp only [Kind.spelling, Element.spelling, hs, Bool.and_self, if_true]
    rw [emptyTag_of_elementOf he]
  | voidTag he hv =>
    have hs := (elementOf_eq_ok he).2.2
    simp only [Kind.spelling, Element.spelling, hs, hv, Bool.and_false, Bool.and_self, if_true]
    rw [startTag_of_elementOf he]
    rfl
  | _ => exact String.toList_ofList

/-! ## What has been read so far is written in the frames -/

/-- The text of the frames: the elements that are open have a start tag only. -/
def written : List (Element × Forest Kind) → Forest Kind → List Char
  | [], here => here.spelling
  | (e, left) :: frames, here => written frames left ++ e.startTag.spelling ++ here.spelling

theorem written_append (frames : List (Element × Forest Kind)) (here f : Forest Kind) :
    written frames (here ++ f) = written frames here ++ f.spelling := by
  cases frames with
  | nil => exact Forest.spelling_append here f
  | cons frame frames =>
    simp only [written, Forest.spelling_append, List.append_assoc]

/-- An end tag turns a frame into a node. -/
theorem written_close {e : Element} (hv : e.isVoid = false) (hs : e.selfClosing = false)
    (frames : List (Element × Forest Kind)) (left here : Forest Kind) :
    written frames (left ++ .node (.element e) here .nil) =
      written ((e, left) :: frames) here ++ e.endTag.spelling := by
  have hnode : (Forest.node (.element e) here .nil).spelling =
      e.startTag.spelling ++ here.spelling ++ e.endTag.spelling := by
    simp [Kind.spelling, Element.spelling, hv, hs]
  rw [written_append, hnode, written]
  simp only [List.append_assoc]

/-- Each token adds its own spelling. -/
theorem addToken_written {g g' : Growth} {t : Token} {frames : List (Element × Forest Kind)}
    {here : Forest Kind} (h : g.addToken t = .ok g') (hg : g.Shows frames here) :
    ∃ frames' here', g'.Shows frames' here' ∧
      written frames' here' = written frames here ++ t.spelling := by
  rcases addToken_cases h with ⟨k, hk, rfl⟩ | ⟨name, attributes, e, rfl, he, hv, rfl⟩ |
    ⟨name, id, opened, rfl, -, ho, rfl⟩
  · refine ⟨frames, _, hg.put k, ?_⟩
    rw [written_append, ← hk.spelling]
    simp [Forest.leaf, Forest.isNil]
  · obtain ⟨hn, -, hs⟩ := elementOf_eq_ok he
    have hname : e.name.toList = name := by rw [hn, String.toList_ofList]
    refine ⟨(e, here) :: frames, .nil, hname ▸ hg.open hv hs, ?_⟩
    rw [written, startTag_of_elementOf he, Forest.spelling_nil, List.append_nil]
  · cases frames with
    | nil =>
      -- without a frame no element is open, so no end tag can be added
      have hnames := hg.names
      rw [ho] at hnames
      cases hnames
    | cons frame frames =>
      obtain ⟨e, left⟩ := frame
      obtain ⟨hv, hs⟩ := hg.waits (e, left) List.mem_cons_self
      obtain ⟨id', opened', ho', hclose⟩ := hg.close
      obtain ⟨⟨-, hname⟩, rfl⟩ : (id = id' ∧ name = e.name.toList) ∧ opened = opened' := by
        rw [ho] at ho'
        simpa using ho'
      refine ⟨frames, _, hclose, ?_⟩
      rw [written_close hv hs, hname]
      rfl

/-! ## Reading a list of tokens -/

/-- Adds tokens, in order. -/
def grow (g : Growth) (ts : List Token) : Except Fault Growth := ts.foldlM addToken g

@[simp] theorem grow_nil (g : Growth) : g.grow [] = .ok g := rfl

theorem grow_cons_ok {g g' : Growth} {t : Token} {ts : List Token} :
    g.grow (t :: ts) = .ok g' ↔ ∃ m, g.addToken t = .ok m ∧ m.grow ts = .ok g' := by
  rw [grow, List.foldlM_cons]
  exact bind_eq_ok

/-- Tokens that were added are written behind what was there. -/
theorem grow_written {g g' : Growth} {ts : List Token} {frames : List (Element × Forest Kind)}
    {here : Forest Kind} (h : g.grow ts = .ok g') (hg : g.Shows frames here) :
    ∃ frames' here', g'.Shows frames' here' ∧
      written frames' here' = written frames here ++ spell ts := by
  induction ts generalizing g frames here with
  | nil =>
    cases h
    exact ⟨frames, here, hg, (List.append_nil _).symm⟩
  | cons t ts ih =>
    obtain ⟨m, hm, hrest⟩ := grow_cons_ok.1 h
    obtain ⟨frames₁, here₁, hshow, hw⟩ := addToken_written hm hg
    obtain ⟨frames', here', hshow', hw'⟩ := ih hrest hshow
    refine ⟨frames', here', hshow', ?_⟩
    rw [hw', hw, spell_cons, List.append_assoc]

/-! ### Places do not matter to the tree -/

/-- The same growth, with another number of bytes behind it. -/
def moved (g : Growth) (offset : Nat) : Growth := { g with offset }

theorem addToken_moved (g : Growth) (offset : Nat) (t : Token) :
    (g.moved offset).addToken t = (g.addToken t).map (·.moved offset) := by
  cases t with
  | startTag name attributes =>
    simp only [addToken]
    cases elementOf name attributes false with
    | error fault => rfl
    | ok e =>
      by_cases hv : e.isVoid = true
      · simp only [if_pos hv]
        rfl
      · simp only [if_neg hv]
        rfl
  | emptyTag name attributes =>
    simp only [addToken]
    cases elementOf name attributes true <;> rfl
  | endTag name =>
    simp only [addToken]
    split
    · rfl
    · have hopened : (g.moved offset).opened = g.opened := rfl
      rw [hopened]
      cases g.opened with
      | nil => rfl
      | cons o opened =>
        obtain ⟨id, expected⟩ := o
        by_cases hn : expected = name
        · simp only [if_pos hn]
          rfl
        · simp only [if_neg hn]
          rfl
  | _ => rfl

theorem add_ok {g g' : Growth} {l : Lexeme} :
    g.add l = .ok g' ↔
      ∃ m, g.addToken l.token = .ok m ∧ g' = m.moved (g.offset + byteLength l.source) := by
  simp only [add]
  cases g.addToken l.token with
  | error fault =>
    constructor
    · intro h
      cases h
    · rintro ⟨m, hm, -⟩
      cases hm
  | ok m =>
    constructor
    · intro h
      cases h
      exact ⟨m, rfl, rfl⟩
    · rintro ⟨m', hm, rfl⟩
      cases hm
      rfl

theorem grow_moved (g : Growth) (offset : Nat) (ts : List Token) :
    (g.moved offset).grow ts = (g.grow ts).map (·.moved offset) := by
  induction ts generalizing g with
  | nil => rfl
  | cons t ts ih =>
    rw [grow, grow, List.foldlM_cons, List.foldlM_cons, addToken_moved]
    cases g.addToken t with
    | error fault => rfl
    | ok m => exact ih m

/-- Reading lexemes adds their tokens and counts the bytes of their sources. -/
theorem foldlM_add_ok {ls : List Lexeme} {g g' : Growth} :
    ls.foldlM add g = .ok g' ↔ ∃ m, g.grow (ls.map Lexeme.token) = .ok m ∧
      g' = m.moved (g.offset + byteLength (ls.flatMap Lexeme.source)) := by
  induction ls generalizing g with
  | nil =>
    constructor
    · intro h
      cases h
      exact ⟨_, rfl, rfl⟩
    · rintro ⟨m, hm, rfl⟩
      cases hm
      rfl
  | cons l ls ih =>
    have hbytes : byteLength ((l :: ls).flatMap Lexeme.source) =
        byteLength l.source + byteLength (ls.flatMap Lexeme.source) := byteLength_append _ _
    have hstep : (l :: ls).foldlM add g = .ok g' ↔
        ∃ m, g.add l = .ok m ∧ ls.foldlM add m = .ok g' := by
      rw [List.foldlM_cons]
      exact bind_eq_ok
    rw [hstep, hbytes, ← Nat.add_assoc]
    constructor
    · rintro ⟨m, hadd, hrest⟩
      obtain ⟨m₁, hm₁, rfl⟩ := add_ok.1 hadd
      obtain ⟨m₂, hm₂, rfl⟩ := ih.1 hrest
      rw [grow_moved] at hm₂
      cases hg : m₁.grow (ls.map Lexeme.token) with
      | error fault => rw [hg] at hm₂; cases hm₂
      | ok m₃ =>
        rw [hg] at hm₂
        cases hm₂
        exact ⟨m₃, grow_cons_ok.2 ⟨m₁, hm₁, hg⟩, rfl⟩
    · rintro ⟨m₃, hm₃, rfl⟩
      obtain ⟨m₁, hm₁, hg⟩ := grow_cons_ok.1 hm₃
      refine ⟨_, add_ok.2 ⟨m₁, hm₁, rfl⟩, ih.2 ⟨m₃.moved (g.offset + byteLength l.source), ?_, rfl⟩⟩
      rw [grow_moved, hg]
      rfl

end Growth

/-! ## Pages -/

/-- A page is read if its tokens go on to its end, can be added, and leave no element open. -/
theorem parse_eq_ok {page : String} {t : Tree} :
    parse page = .ok t ↔ ∃ lost g, (scan page).ending = .finished lost ∧
      Growth.start.grow (scan page).tokens = .ok g ∧ g.opened = [] ∧ g.tree = t := by
  have hparse : parse page = .ok t ↔
      ∃ g, (scan page).lexemes.foldlM Growth.add Growth.start = .ok g ∧
        g.finish (scan page).ending = .ok t := bind_eq_ok
  rw [hparse]
  constructor
  · rintro ⟨g, hg, hfinish⟩
    obtain ⟨m, hm, rfl⟩ := Growth.foldlM_add_ok.1 hg
    -- a page that fails on the way is not finished
    cases he : (scan page).ending with
    | failed fault consumed => rw [he] at hfinish; cases hfinish
    | finished lost =>
      rw [he] at hfinish
      simp only [Growth.finish, Growth.moved] at hfinish
      split at hfinish
      · rename_i ho
        cases hfinish
        exact ⟨lost, m, rfl, hm, ho, rfl⟩
      · cases hfinish
  · rintro ⟨lost, g, he, hg, ho, rfl⟩
    refine ⟨_, Growth.foldlM_add_ok.2 ⟨g, hg, rfl⟩, ?_⟩
    rw [he]
    simp only [Growth.finish, Growth.moved, ho]

/-- Once no element is open, all that was read is in the row below the root. -/
theorem Growth.shows_of_grow {g : Growth} {ts : List Token} (h : Growth.start.grow ts = .ok g)
    (ho : g.opened = []) : ∃ here, g.Shows [] here ∧ here.spelling = spell ts := by
  obtain ⟨frames, here, hg, hw⟩ := Growth.grow_written h Growth.shows_start
  have hframes : frames = [] := by
    have hnames := hg.names
    rw [ho] at hnames
    exact List.map_eq_nil_iff.1 hnames.symm
  subst hframes
  exact ⟨here, hg, hw⟩

/-- The forest of a page that was read is written as its tokens. -/
theorem spelling_of_grow {g : Growth} {ts : List Token} (h : Growth.start.grow ts = .ok g)
    (ho : g.opened = []) : g.tree.serialize.toList = spell ts := by
  obtain ⟨here, hg, hw⟩ := Growth.shows_of_grow h ho
  obtain ⟨hroot, hforest⟩ := hg.forest
  rw [Tree.toList_serialize hroot, hforest]
  exact hw

/-- Each node of a page that was read is on the page, and they are numbered in document order. -/
theorem descendants_of_parse {page : String} {t : Tree} (h : parse page = .ok t) :
    t.descendants Tree.root = List.range' 1 (t.size - 1) := by
  obtain ⟨lost, g, -, hg, ho, rfl⟩ := parse_eq_ok.1 h
  obtain ⟨here, hshow, -⟩ := Growth.shows_of_grow hg ho
  obtain ⟨fs, f, hgrown, -, hfs⟩ := hshow.grown
  obtain rfl : fs = [] := List.map_eq_nil_iff.1 hfs
  rw [Tree.descendants_eq_preorder, hgrown.content]
  exact hgrown.order

/-- A page that was read is written as its tokens, in order. Their sources make up the page, but for
a mark at its start and a bracket that is lost at its end. -/
theorem serialize_of_parse {page : String} {t : Tree} (h : parse page = .ok t) :
    t.serialize.toList = (scan page).lexemes.flatMap (·.token.spelling) ∧
      (∀ l ∈ (scan page).lexemes, l.token.StandsAs l.source) ∧
      ∃ lost, lost <+: ['<'] ∧
        (scan page).lexemes.flatMap Lexeme.source ++ lost = withoutMark page.toList := by
  obtain ⟨lost, g, he, hg, ho, rfl⟩ := parse_eq_ok.1 h
  obtain ⟨happ, hlost⟩ := flatMap_source_scanFrom he
  refine ⟨?_, standsAs_of_mem_lexemes, lost, hlost, happ⟩
  rw [spelling_of_grow hg ho, spell, Scan.tokens, List.flatMap_map]

/-- Blanks in an end tag and a lost bracket are not written. -/
theorem serialize_paragraph : ∃ t, parse "<p >a<br></p ><" = .ok t ∧
    t.serialize = "<p >a<br></p>" ∧
    t.serialize.toList = (scan "<p >a<br></p ><").lexemes.flatMap (·.token.spelling) := by
  have hw : (parse "<p >a<br></p ><").toOption.map Tree.serialize = some "<p >a<br></p>" := by
    decide +kernel
  obtain ⟨t, hp, hs⟩ := exists_ok_of_map hw
  exact ⟨t, hp, hs, (serialize_of_parse hp).1⟩

theorem withoutMark_eq_self {cs : List Char} (h : cs.head? ≠ some '\uFEFF') :
    withoutMark cs = cs := by
  unfold withoutMark
  split
  · exact absurd rfl h
  · rfl

/-- What is written has no mark at its start, unless the page has two. -/
theorem withoutMark_spell {page : String} (h : ¬ ['\uFEFF', '\uFEFF'] <+: page.toList) :
    withoutMark (spell (scan page).tokens) = spell (scan page).tokens := by
  apply withoutMark_eq_self
  intro hc
  have hhead : '\uFEFF' ∈ (withoutMark page.toList).head? := head?_spell_scanFrom hc
  unfold withoutMark at hhead
  split at hhead
  · rename_i cs hp
    obtain ⟨tail, rfl⟩ := List.head?_eq_some_iff.1 hhead
    exact h ⟨tail, hp.symm⟩
  · rename_i hp
    obtain ⟨tail, ht⟩ := List.head?_eq_some_iff.1 hhead
    exact hp tail ht

/-- The tokens of what is written are those of the page. -/
theorem scan_serialize {page : String} {t : Tree} (h : parse page = .ok t)
    (hm : ¬ ['\uFEFF', '\uFEFF'] <+: page.toList) :
    scan t.serialize = ⟨(scan page).tokens.map Token.written, .finished []⟩ := by
  obtain ⟨lost, g, he, hg, ho, rfl⟩ := parse_eq_ok.1 h
  rw [scan, spelling_of_grow hg ho, withoutMark_spell hm]
  exact scanFrom_spell (legible_scanFrom he)

/-- What is written is read as the same tree, node for node. So two trees that were read are equal
if they are written alike, and reading and writing once more changes nothing. -/
theorem parse_serialize {page : String} {t : Tree} (h : parse page = .ok t)
    (hm : ¬ ['\uFEFF', '\uFEFF'] <+: page.toList) :
    parse t.serialize = .ok t ∧
      (∀ page' t', parse page' = .ok t' → ¬ ['\uFEFF', '\uFEFF'] <+: page'.toList →
        t'.serialize = t.serialize → t' = t) ∧
      (parse t.serialize).map Tree.serialize = .ok t.serialize := by
  have hread : ∀ page t, parse page = .ok t → ¬ ['\uFEFF', '\uFEFF'] <+: page.toList →
      parse t.serialize = .ok t := by
    intro page t h hm
    obtain ⟨lost, g, he, hg, ho, htree⟩ := parse_eq_ok.1 h
    -- the same tokens grow the same tree
    have hscan := scan_serialize h hm
    refine parse_eq_ok.2 ⟨[], g, by rw [hscan], ?_, ho, htree⟩
    have htokens : (scan t.serialize).tokens = (scan page).tokens := by
      rw [hscan, Scan.tokens, List.map_map]
      exact List.map_id _
    rw [htokens, hg]
  have hsame := hread page t h hm
  refine ⟨hsame, ?_, ?_⟩
  · intro page' t' h' hm' heq
    have hsame' := hread page' t' h' hm'
    rw [heq, hsame] at hsame'
    cases hsame'
    rfl
  · rw [hsame]
    rfl

/-- A page with a keyword in small letters and a script is read from its normal spelling. -/
theorem parse_serialize_script :
    ∃ t, parse "<!doctype html><script>a<b></script >" = .ok t ∧
      t.serialize = "<!DOCTYPE html><script>a<b></script>" ∧
      parse "<!DOCTYPE html><script>a<b></script>" = .ok t := by
  have hw : (parse "<!doctype html><script>a<b></script >").toOption.map Tree.serialize =
      some "<!DOCTYPE html><script>a<b></script>" := by
    decide +kernel
  obtain ⟨t, hp, hs⟩ := exists_ok_of_map hw
  have hsame := (parse_serialize hp (by decide)).1
  rw [hs] at hsame
  exact ⟨t, hp, hs, hsame⟩

end PageMend.Markup
