import PageMend.Proofs.Markup.Reload

/-!
# Bodies of scripts and style sheets

The body of a script or style sheet is raw text up to its end tag. The reader looks for the end tag
by reading tokens, though, so a body has to be made of whole tokens (`parse_elementPage_iff`). A
comparison in a script may start a tag, which then swallows the end tag of the script
(`parse_elementPage_comparison`). A body that does not hold its end tag is never cut short: the page
is refused, or it is one element around one text.

`Reads` is a run of tokens, whatever they mean. A body is closed where such a run has come to, if no
token in it opens or closes an element of the name (`Reads.readBody`, `reads_of_readBody`).
-/

namespace PageMend.Markup

open Text (isMarkupBlank)

/-! ## Runs of tokens -/

/-- The tokens at the front of a text, and what is left behind them. -/
inductive Reads : List Char → List Lexeme → List Char → Prop
  | nil (cs : List Char) : Reads cs [] cs
  | cons {cs mid rest : List Char} {l : Lexeme} {ls : List Lexeme}
    (first : readToken cs = .lexeme l mid) (others : Reads mid ls rest) : Reads cs (l :: ls) rest

section
variable {cs rest : List Char} {ls : List Lexeme}

/-- The sources of the tokens are what was read. -/
theorem Reads.append (h : Reads cs ls rest) : ls.flatMap Lexeme.source ++ rest = cs := by
  induction h with
  | nil cs => rfl
  | cons first _ ih => rw [List.flatMap_cons, List.append_assoc, ih, source_append_rest first]

theorem Reads.standsAs (h : Reads cs ls rest) : ∀ l ∈ ls, l.token.StandsAs l.source := by
  induction h with
  | nil cs => exact fun _ h => absurd h List.not_mem_nil
  | cons first _ ih => exact List.forall_mem_cons.2 ⟨standsAs_of_readToken first, ih⟩

end

/-- An end tag is written as a slash and its name, whatever stands behind the name. -/
theorem prefix_of_standsAs {name source : List Char} (h : (Token.endTag name).StandsAs source) :
    '<' :: '/' :: name <+: source := by
  obtain ⟨content, closing, -, rfl, rfl⟩ := h
  obtain ⟨blanks, hblanks⟩ := prefix_endName content
  refine ⟨blanks ++ closing, ?_⟩
  conv_rhs => rw [← hblanks]
  simp

/-! ## Where a body ends -/

section
variable {name : List Char}

theorem depthBehind_of_ne {t : Token} (hstart : ∀ attributes, t ≠ .startTag name attributes)
    (hend : t ≠ .endTag name) (depth : Nat) : t.depthBehind name depth = some depth := by
  cases t with
  | startTag n attributes =>
    have hn : n ≠ name := by
      rintro rfl
      exact hstart attributes rfl
    simp [Token.depthBehind, hn]
  | endTag n =>
    have hn : n ≠ name := by
      rintro rfl
      exact hend rfl
    simp [Token.depthBehind, hn]
  | _ => rfl

/-- Where no element of the name is opened or closed, the body goes up to its end tag. -/
theorem Reads.readBody {cs rest : List Char} {ls : List Lexeme} (h : Reads cs ls rest)
    (hrest : EndsElement name rest)
    (hstart : ∀ l ∈ ls, ∀ attributes, l.token ≠ .startTag name attributes)
    (hend : ∀ l ∈ ls, l.token ≠ .endTag name) :
    readBody name 0 cs = .closed (ls.flatMap Lexeme.source) rest := by
  induction h with
  | nil cs => exact readBody_of_end hrest
  | cons first _ ih =>
    obtain ⟨hs, hstart⟩ := List.forall_mem_cons.1 hstart
    obtain ⟨he, hend⟩ := List.forall_mem_cons.1 hend
    rw [readBody_of_readToken first (depthBehind_of_ne hs he 0), ih hrest hstart hend]
    rfl

/-- A body without an end tag of the name is a run of tokens that opens no element of it, because
nothing in it would close that element. -/
theorem reads_of_readBody {depth : Nat} {cs body rest : List Char}
    (h : readBody name depth cs = .closed body rest)
    (hbody : ¬ '<' :: '/' :: name <:+: body) :
    depth = 0 ∧ ∃ ls, Reads cs ls rest ∧
      ∀ l ∈ ls, ∀ attributes, l.token ≠ .startTag name attributes := by
  fun_induction Markup.readBody name depth cs generalizing body rest with
  | case1 => cases h
  | case2 => cases h
  | case3 depth cs l _ hr hd =>
    cases h
    exact ⟨(depthBehind_eq_none hd).1, [], .nil cs, fun _ h => absurd h List.not_mem_nil⟩
  | case4 depth cs l mid hr d hd ih =>
    cases hb : Markup.readBody name d mid with
    | broken => rw [hb] at h; cases h
    | closed body' rest' =>
      rw [hb] at h
      cases h
      obtain ⟨rfl, ls, hreads, hstart⟩ := ih hb fun hm =>
        hbody (hm.trans (List.suffix_append ..).isInfix)
      have hend : l.token ≠ .endTag name := by
        intro ht
        have hopens := prefix_of_standsAs (ht ▸ standsAs_of_readToken hr)
        exact hbody (hopens.trans (List.prefix_append ..)).isInfix
      have hfirst : ∀ attributes, l.token ≠ .startTag name attributes := by
        intro attributes ht
        rw [ht, Token.depthBehind, if_pos rfl] at hd
        cases hd
      rw [depthBehind_of_ne hfirst hend] at hd
      exact ⟨Option.some.inj hd, l :: ls, .cons hr hreads, List.forall_mem_cons.2 ⟨hfirst, hstart⟩⟩

end

/-- Behind a text without the mark `c :: mark`, the first such mark is where one starts that holds
`c` nowhere else. -/
theorem eq_of_append_eq {c : Char} {mark tail body body' rest : List Char}
    (hc : c ∉ mark ++ tail) (h : body' ++ rest = body ++ c :: (mark ++ tail))
    (hrest : c :: mark <+: rest) (hbody : ¬ c :: mark <:+: body) : body' = body := by
  obtain ⟨behind, rfl⟩ := hrest
  rcases List.append_eq_append_iff.1 h with ⟨a, rfl, ha⟩ | ⟨a, rfl, ha⟩
  · -- the mark stands inside the body, or starts there and goes on behind it
    cases a with
    | nil => simp
    | cons d a =>
      rw [List.cons_append, List.cons_append] at ha
      obtain ⟨rfl, htail⟩ := List.cons.inj ha
      exfalso
      rcases List.append_eq_append_iff.1 htail with ⟨a', rfl, -⟩ | ⟨m, rfl, hm⟩
      · exact hbody ⟨body', a', by simp⟩
      · cases m with
        | nil => exact hbody ⟨body', [], by simp⟩
        | cons e m =>
          obtain ⟨rfl, -⟩ := List.cons.inj hm
          simp at hc
  · cases a with
    | nil => simp
    | cons d a =>
      rw [List.cons_append] at ha
      obtain ⟨-, ha⟩ := List.cons.inj ha
      refine absurd ?_ hc
      rw [ha]
      simp

/-! ## Elements for raw text -/

section
variable {name : List Char}

/-- The letters that a name for raw text is made of. -/
theorem not_mem_of_isRawTextName (h : isRawTextName (String.ofList name) = true) {c : Char}
    (hc : c.toLower ∉ "scriptyle".toList) : c ∉ name := by
  have hword : ∀ word : String, (word.toList.map Char.toLower).all ("scriptyle".toList.contains ·) →
      sameName (String.ofList name) word = true → c ∉ name := by
    intro word hletters hsame
    have hlower := eq_of_beq hsame
    rw [String.toList_ofList] at hlower
    apply not_mem_of_map_toLower hlower
    intro hm
    exact hc (List.contains_iff_mem.1 (List.all_eq_true.1 hletters _ hm))
  rw [isRawTextName, Bool.or_eq_true] at h
  exact h.elim (hword "script" (by decide)) (hword "style" (by decide))

theorem ne_nil_of_isRawTextName (h : isRawTextName (String.ofList name) = true) : name ≠ [] := by
  rintro rfl
  cases h

theorem splitOutsideQuotes_plain {content : List Char}
    (h : ∀ c ∈ content, c ≠ '>' ∧ c ≠ '"' ∧ c ≠ '\'') (rest : List Char) :
    splitOutsideQuotes none (content ++ '>' :: rest) = some (content, rest) := by
  induction content with
  | nil => rfl
  | cons c content ih =>
    obtain ⟨⟨hclose, hquotes⟩, hcontent⟩ := List.forall_mem_cons.1 h
    rw [List.cons_append, splitOutsideQuotes, if_neg hclose, if_neg (not_or.2 hquotes),
      ih hcontent]
    rfl

variable (h : isRawTextName (String.ofList name) = true)
include h

theorem isMarkupBlank_of_mem {c : Char} (hc : c ∈ name) : isMarkupBlank c = false := by
  rw [Bool.eq_false_iff]
  intro hblank
  simp only [isMarkupBlank, Bool.or_eq_true, beq_iff_eq] at hblank
  rcases hblank with ((rfl | rfl) | rfl) | rfl <;>
    exact not_mem_of_isRawTextName h (by decide) hc

theorem tagOf_of_isRawTextName : tagOf name = .startTag name [] := by
  have hplain : ∀ c ∈ name, (!isMarkupBlank c) = true := by
    intro c hc
    rw [isMarkupBlank_of_mem h hc]
    rfl
  have hsplit : splitName name = (name, []) := by
    rw [splitName, List.takeWhile_eq_self_iff.2 hplain, List.dropWhile_eq_nil_iff.2 hplain]
  have hslash : name.getLast? ≠ some '/' := fun hlast =>
    not_mem_of_isRawTextName h (by decide) (List.mem_of_getLast? hlast)
  rw [tagOf, if_neg hslash, hsplit]

theorem readsBack_rawTag : (Token.startTag name []).ReadsBack := by
  intro rest _
  have hnot : ∀ c : Char, c.toLower ∉ "scriptyle".toList → ∀ d ∈ name, d ≠ c := by
    rintro c hc d hd rfl
    exact not_mem_of_isRawTextName h hc hd
  have hplain : ∀ c ∈ name, c ≠ '>' ∧ c ≠ '"' ∧ c ≠ '\'' := fun c hc =>
    ⟨hnot '>' (by decide) c hc, hnot '"' (by decide) c hc, hnot '\'' (by decide) c hc⟩
  have hsplit := splitOutsideQuotes_plain hplain rest
  have hread : readElement (name ++ '>' :: rest) =
      .lexeme ⟨tagOf name, '<' :: name ++ ['>']⟩ rest := by
    rw [readElement, hsplit]
  have hstarts : StartsElement (name ++ '>' :: rest) := by
    obtain ⟨c, cs, hcs⟩ := List.exists_cons_of_ne_nil (ne_nil_of_isRawTextName h)
    have hc : c ∈ name := by rw [hcs]; exact List.mem_cons_self
    refine ⟨by simp, fun d hd => ?_⟩
    rw [hcs] at hd
    cases hd
    exact ⟨hnot '!' (by decide) c hc, hnot '/' (by decide) c hc, hnot '?' (by decide) c hc⟩
  have htag := readToken_tag hstarts hread
  rw [tagOf_of_isRawTextName h] at htag
  simpa using htag

theorem readsBack_rawEndTag : (Token.endTag name).ReadsBack := by
  apply readsBack_endTag (not_mem_of_isRawTextName h (by decide))
  have hne := ne_nil_of_isRawTextName h
  have hlast := isMarkupBlank_of_mem h (List.getLast_mem hne)
  have hall : ¬ name.all isMarkupBlank = true := fun hall =>
    absurd (hlast.symm.trans (List.all_eq_true.1 hall _ (List.getLast_mem hne))) Bool.false_ne_true
  rw [endName_eq_rdropWhile hall, List.rdropWhile_eq_self_iff]
  exact fun _ => Bool.eq_false_iff.1 hlast

end

/-- Whether a text is the body of a script or style sheet is found by reading it once. -/
theorem rawBody_iff_readBody {name body : List Char}
    (h : isRawTextName (String.ofList name) = true) :
    RawBody name body ↔ readBody name 0 (body ++ (Token.endTag name).spelling) =
      .closed body (Token.endTag name).spelling := by
  constructor
  · intro hbody
    have hend := endsElement_spelling (readsBack_rawEndTag h) []
    rw [List.append_nil] at hend
    exact hbody _ hend
  · exact rawBody_of_readBody

theorem Kind.holds_iff {e : Element} {body : String} : (Kind.element e).Holds body ↔
    if e.isRaw then
      readBody e.name.toList 0 (body.toList ++ e.endTag.spelling) =
        .closed body.toList e.endTag.spelling
    else '<' ∉ body.toList := by
  cases hraw : e.isRaw with
  | true =>
    obtain ⟨hname, -⟩ := Bool.and_eq_true_iff.1 hraw
    rw [Kind.holds_iff_of_isRaw hraw, if_pos rfl]
    exact rawBody_iff_readBody (by rwa [String.ofList_toList])
  | false =>
    have hplain : (Kind.element e).isRaw = false := hraw
    rw [Kind.holds_iff_of_plain hplain, if_neg Bool.false_ne_true]

instance (k : Kind) (body : String) : Decidable (k.Holds body) :=
  match k with
  | .element _ => decidable_of_iff _ Kind.holds_iff.symm
  | .root | .text _ | .markup _ => inferInstanceAs (Decidable ('<' ∉ body.toList))

theorem readable_rawElement {name : String} (h : isRawTextName name = true) :
    Element.Readable ⟨name, "", [], false⟩ where
  reads := by
    have hread : readAttributes name.toList [] = .ok [] := by
      rw [readAttributes, readAttributesFrom]
      rfl
    show Growth.elementOf name.toList [] false = _
    rw [Growth.elementOf, hread, Except.map, String.ofList_toList]
    rfl
  tag := readsBack_rawTag (by rwa [String.ofList_toList])

theorem scanFrom_of_broken {cs rest name : List Char} {l : Lexeme} {fault : Fault} {consumed : Nat}
    (h : readToken cs = .lexeme l rest) (hn : l.token.rawTextName? = some name)
    (hb : readBody name 0 rest = .broken fault consumed) :
    scanFrom cs = ⟨[l], .failed fault consumed⟩ := by
  rw [scanFrom_eq, h]
  simp only [hn, hb]

/-! ## An element on a page of its own -/

/-- A page that is one element without attributes. -/
def elementPage (name body : String) : String := "<" ++ name ++ ">" ++ body ++ "</" ++ name ++ ">"

/-- Whether a body is made of whole tokens, in front of its end tag, of which none opens another
element of that name. -/
def WholeBody (name body : List Char) : Prop :=
  ∃ ls, Reads (body ++ (Token.endTag name).spelling) ls (Token.endTag name).spelling ∧
    ∀ l ∈ ls, ∀ attributes, l.token ≠ .startTag name attributes

section
variable {name body : String}

theorem toList_elementPage : (elementPage name body).toList =
    (Token.startTag name.toList []).spelling ++
      (body.toList ++ (Token.endTag name.toList).spelling) := by
  simp [elementPage]

/-- A body that ends at its end tag makes one text. -/
theorem exists_parse_of_readBody (hname : isRawTextName name = true) (hne : body ≠ "")
    (h : readBody name.toList 0 (body.toList ++ (Token.endTag name.toList).spelling) =
      .closed body.toList (Token.endTag name.toList).spelling) :
    ∃ t, parse (elementPage name body) = .ok t ∧
      t.forest Tree.root =
        .node (.element ⟨name, "", [], false⟩) (.leaf (.text body)) .nil := by
  have hname' : isRawTextName (String.ofList name.toList) = true := by rwa [String.ofList_toList]
  have hleaf : Element.isLeaf ⟨name, "", [], false⟩ = false := by
    rw [Element.isLeaf, Element.isVoid, isVoidName_of_isRawTextName hname]
    rfl
  have hraw : Element.isRaw ⟨name, "", [], false⟩ = true := by
    rw [Element.isRaw, hname]
    rfl
  apply parse_of_spelling
  · have hbody : RawBody name.toList body.toList := rawBody_of_readBody h
    refine .raw (readable_rawElement hname) (readsBack_rawEndTag hname') hleaf hraw hbody
      (.inr ?_) .nil
    rw [String.ofList_toList]
  · exact .node rfl (.text hne rfl .nil) .nil
  · rw [toList_elementPage]
    show _ = Element.spelling _ _ _ ++ []
    rw [Element.spelling_of_isLeaf hleaf]
    simp [withoutMark, Element.startTag, Element.endTag, Forest.leaf, Kind.spelling]

/-- A page that is read has a body that ends at its end tag. -/
theorem readBody_of_parse (hname : isRawTextName name = true)
    (hend : ¬ '<' :: '/' :: name.toList <:+: body.toList) {t : Tree}
    (h : parse (elementPage name body) = .ok t) :
    readBody name.toList 0 (body.toList ++ (Token.endTag name.toList).spelling) =
      .closed body.toList (Token.endTag name.toList).spelling := by
  have hname' : isRawTextName (String.ofList name.toList) = true := by rwa [String.ofList_toList]
  have hfirst := readsBack_rawTag hname'
    (body.toList ++ (Token.endTag name.toList).spelling) trivial
  have hscan : scan (elementPage name body) = scanFrom ((Token.startTag name.toList []).spelling ++
      (body.toList ++ (Token.endTag name.toList).spelling)) := by
    rw [scan, toList_elementPage]
    rfl
  obtain ⟨lost, g, hending, -⟩ := parse_eq_ok.1 h
  cases hb : readBody name.toList 0 (body.toList ++ (Token.endTag name.toList).spelling) with
  | broken fault consumed =>
    rw [hscan, scanFrom_of_broken hfirst (if_pos hname') hb] at hending
    cases hending
  | closed body' rest =>
    have happ := append_of_readBody hb
    have hmark : '<' :: '/' :: name.toList <+: rest := by
      obtain ⟨l, behind, hr, ht⟩ := endsElement_of_readBody hb
      have hopens := prefix_of_standsAs (ht ▸ standsAs_of_readToken hr)
      rw [← source_append_rest hr]
      exact hopens.trans (List.prefix_append ..)
    have hbracket : '<' ∉ ('/' :: name.toList) ++ ['>'] := by
      have := not_mem_of_isRawTextName hname' (c := '<') (by decide)
      simp [this]
    -- the first end tag of the name is the one that is written behind the body
    have hbody : body' = body.toList := eq_of_append_eq hbracket happ hmark hend
    rw [hbody] at happ ⊢
    rw [List.append_cancel_left happ]

theorem readBody_iff_wholeBody (hname : isRawTextName name = true)
    (hend : ¬ '<' :: '/' :: name.toList <:+: body.toList) :
    readBody name.toList 0 (body.toList ++ (Token.endTag name.toList).spelling) =
        .closed body.toList (Token.endTag name.toList).spelling ↔
      WholeBody name.toList body.toList := by
  constructor
  · intro h
    exact (reads_of_readBody h hend).2
  · rintro ⟨ls, hreads, hstart⟩
    have happ : ls.flatMap Lexeme.source = body.toList := List.append_cancel_right hreads.append
    have hname' : isRawTextName (String.ofList name.toList) = true := by
      rwa [String.ofList_toList]
    have hstop := endsElement_spelling (readsBack_rawEndTag hname') []
    rw [List.append_nil] at hstop
    have hclosed := hreads.readBody hstop hstart fun l hl ht => by
      have hmark := (prefix_of_standsAs (ht ▸ hreads.standsAs l hl)).isInfix
      have hsource : l.source <:+: body.toList := by
        rw [← happ, List.flatMap_def]
        exact List.infix_of_mem_flatten (List.mem_map_of_mem hl)
      exact hend (hmark.trans hsource)
    rwa [happ] at hclosed

/-- Text without a bracket is one token. -/
theorem wholeBody_of_plain {name body : List Char} (hne : body ≠ []) (hb : '<' ∉ body) :
    WholeBody name body := by
  have hread := readsBack_text hne hb (Token.endTag name).spelling ((atTag_cons _ _).2 rfl)
  refine ⟨[(Token.text body).written], .cons hread (.nil _), ?_⟩
  intro l hl attributes
  obtain rfl := List.mem_singleton.1 hl
  exact Token.noConfusion

/-- A script or style sheet on a page of its own, with a body that is not empty and does not hold
the end tag, is read just when the body is made of whole tokens and opens no other element of that
name; a body without a bracket is. Then the page is one element around one text, which is the
body. -/
theorem parse_elementPage_iff (hname : isRawTextName name = true) (hne : body ≠ "")
    (hend : ¬ '<' :: '/' :: name.toList <:+: body.toList) :
    ((∃ t, parse (elementPage name body) = .ok t) ↔ WholeBody name.toList body.toList) ∧
      (∀ t, parse (elementPage name body) = .ok t → t.forest Tree.root =
        .node (.element ⟨name, "", [], false⟩) (.leaf (.text body)) .nil) ∧
      ('<' ∉ body.toList → WholeBody name.toList body.toList) := by
  refine ⟨⟨?_, ?_⟩, ?_, ?_⟩
  · rintro ⟨t, ht⟩
    exact (readBody_iff_wholeBody hname hend).1 (readBody_of_parse hname hend ht)
  · intro hwhole
    obtain ⟨t, ht, -⟩ :=
      exists_parse_of_readBody hname hne ((readBody_iff_wholeBody hname hend).2 hwhole)
    exact ⟨t, ht⟩
  · intro t ht
    obtain ⟨t', ht', hforest⟩ :=
      exists_parse_of_readBody hname hne (readBody_of_parse hname hend ht)
    rw [ht] at ht'
    cases ht'
    exact hforest
  · intro hplain
    exact wholeBody_of_plain (fun h => hne (String.toList_eq_nil_iff.1 h)) hplain

/-- Tags that are not those of the script are text in it. -/
theorem parse_elementPage_write :
    let body := "write(\"<b>\" + s + \"</B>\");"
    ∃ t, parse (elementPage "SCRIPT" body) = .ok t ∧
      t.forest Tree.root =
        .node (.element ⟨"SCRIPT", "", [], false⟩) (.leaf (.text body)) .nil := by
  intro body
  have hread : (parse (elementPage "SCRIPT" body)).toOption.isSome = true := by decide +kernel
  obtain ⟨t, ht⟩ := Option.isSome_iff_exists.1 hread
  have ht := eq_ok_of_toOption ht
  have hiff := @parse_elementPage_iff "SCRIPT" body (by decide) (by decide) (by decide +kernel)
  exact ⟨t, ht, hiff.2.1 t ht⟩

/-- A comparison in a script takes its end tag for the end of a tag of its own. -/
theorem parse_elementPage_comparison :
    ¬ ∀ name body : String, isRawTextName name = true → body ≠ "" →
      ¬ ('<' :: '/' :: name.toList).map Char.toLower <:+: body.toList.map Char.toLower →
      ∃ t, parse (elementPage name body) = .ok t ∧
        t.forest Tree.root =
          .node (.element ⟨name, "", [], false⟩) (.leaf (.text body)) .nil := by
  intro hall
  obtain ⟨t, ht, -⟩ := hall "script" "a<b" (by decide) (by decide) (by decide)
  have hread : (parse (elementPage "script" "a<b")).toOption.isSome = false := by decide +kernel
  rw [ht] at hread
  cases hread

end

end PageMend.Markup
