import PageMend.Proofs.Markup.ReadBack

/-!
# Texts written from tokens

`spell` writes tokens one behind the other. `Legible` says of a list of tokens that it can be told
from its spelling: each token reads back, each text is followed by a tag, and the tokens behind the
start tag of a script or style sheet are its body, if any, and its end tag.

* `scanFrom_spell`: reading the spelling of a legible list finds exactly these tokens.
* `legible_scanFrom`: the tokens of a page whose reading comes to its end are legible.

Together they say that a page can be written in its one normal spelling, and reads the same.
-/

namespace PageMend.Markup

open Text (isMarkupBlank)

/-- Tokens, written one behind the other. -/
def spell (ts : List Token) : List Char := ts.flatMap Token.spelling

@[simp] theorem spell_nil : spell [] = [] := rfl

@[simp] theorem spell_cons (t : Token) (ts : List Token) :
    spell (t :: ts) = t.spelling ++ spell ts := List.flatMap_cons

@[simp] theorem spell_append (ts us : List Token) : spell (ts ++ us) = spell ts ++ spell us :=
  List.flatMap_append

/-! ## Bodies of script and style sheets -/

/-- Whether a text goes on with the end tag of that name. -/
def EndsElement (name rest : List Char) : Prop :=
  ∃ l behind, readToken rest = .lexeme l behind ∧ l.token = .endTag name

/-- The body of an element of that name: wherever the end tag is put behind it, the reading stops
just there. -/
def RawBody (name body : List Char) : Prop :=
  ∀ rest, EndsElement name rest → readBody name 0 (body ++ rest) = .closed body rest

theorem endsElement_spelling {name : List Char} (h : (Token.endTag name).ReadsBack)
    (rest : List Char) : EndsElement name ((Token.endTag name).spelling ++ rest) :=
  ⟨_, rest, h rest trivial, rfl⟩

/-- An end tag starts with a bracket. -/
theorem EndsElement.exists_cons {name rest : List Char} (h : EndsElement name rest) :
    ∃ tail, rest = '<' :: tail := by
  obtain ⟨l, behind, hr, ht⟩ := h
  rcases readToken_cases hr with ⟨tail, rfl, -⟩ | ⟨body, -, -, -, rfl⟩
  · exact ⟨tail, rfl⟩
  · cases ht

theorem EndsElement.atTag {name rest : List Char} (h : EndsElement name rest) : AtTag rest := by
  obtain ⟨tail, rfl⟩ := h.exists_cons
  exact (atTag_cons _ _).2 rfl

/-- Only the end tag of the outermost element brings the nesting to its end. -/
theorem depthBehind_eq_none {name : List Char} {depth : Nat} {t : Token}
    (h : t.depthBehind name depth = none) : depth = 0 ∧ t = .endTag name := by
  cases t with
  | endTag n =>
    simp only [Token.depthBehind] at h
    split at h
    · rename_i hn
      cases depth with
      | zero => exact ⟨rfl, by rw [hn]⟩
      | succ depth => cases h
    · cases h
  | _ => cases h

theorem endsElement_of_readBody {name cs body rest : List Char} {depth : Nat}
    (h : readBody name depth cs = .closed body rest) : EndsElement name rest := by
  fun_induction readBody name depth cs generalizing body rest with
  | case1 => cases h
  | case2 => cases h
  | case3 depth cs l rest' hr hd =>
    cases h
    exact ⟨l, rest', hr, (depthBehind_eq_none hd).2⟩
  | case4 depth cs l rest' hr d _ ih =>
    cases hb : readBody name d rest' with
    | broken => rw [hb] at h; cases h
    | closed body' rest'' =>
      rw [hb] at h
      cases h
      exact ih hb

theorem readBody_of_end {name rest : List Char} (h : EndsElement name rest) :
    readBody name 0 rest = .closed [] rest := by
  obtain ⟨l, behind, hr, ht⟩ := h
  rw [readBody_eq, hr]
  simp [ht, Token.depthBehind]

theorem readBody_of_readToken {name cs rest : List Char} {depth d : Nat} {l : Lexeme}
    (h : readToken cs = .lexeme l rest) (hd : l.token.depthBehind name depth = some d) :
    readBody name depth cs = (readBody name d rest).prepend l.source := by
  rw [readBody_eq, h]
  simp only [hd]

/-- A body that was found once is found again in front of any end tag of the name. Its tokens are
read from their sources, each of which has something behind it. -/
theorem readBody_frame {name cs body rest : List Char} {depth : Nat}
    (h : readBody name depth cs = .closed body rest) {rest' : List Char}
    (he : EndsElement name rest') : readBody name depth (body ++ rest') = .closed body rest' := by
  fun_induction readBody name depth cs generalizing body rest with
  | case1 => cases h
  | case2 => cases h
  | case3 depth cs l _ hr hd =>
    cases h
    obtain ⟨rfl, -⟩ := depthBehind_eq_none hd
    exact readBody_of_end he
  | case4 depth cs l mid hr d hd ih =>
    cases hb : readBody name d mid with
    | broken => rw [hb] at h; cases h
    | closed body' rest'' =>
      rw [hb] at h
      cases h
      -- the token has the rest of the body behind it, which ends in front of a tag
      have hmid := append_of_readBody hb
      have hne : mid ≠ [] := by
        obtain ⟨tail, rfl⟩ := (endsElement_of_readBody hb).exists_cons
        simp [← hmid]
      have hends : l.token.EndsAt (body' ++ rest') :=
        Token.EndsAt.append (hmid ▸ endsAt_of_readToken hr) he.atTag
      have hframe := readToken_frame hr hne hends
      rw [List.append_assoc, readBody_of_readToken hframe hd, ih hb]
      rfl

theorem rawBody_of_readBody {name cs body rest : List Char}
    (h : readBody name 0 cs = .closed body rest) : RawBody name body :=
  fun _ he => readBody_frame h he

/-! ## Legible lists of tokens -/

/-- The tokens of a body. -/
def rawTokens (body : List Char) : List Token := (rawLexemes body).map Lexeme.token

@[simp] theorem spell_rawTokens (body : List Char) : spell (rawTokens body) = body := by
  unfold rawTokens rawLexemes
  split
  · rename_i h
    rw [h]
    rfl
  · exact List.append_nil body

/-- Tokens that can be told from their spelling. -/
inductive Legible : List Token → Prop
  | nil : Legible []
  | cons {t : Token} {ts : List Token} (reads : t.ReadsBack) (plain : t.rawTextName? = none)
      (ends : t.EndsAt (spell ts)) (rest : Legible ts) : Legible (t :: ts)
  /-- A script or style sheet. Its body takes no part in the reading of tags. -/
  | raw {name attributes body : List Char} {ts : List Token}
      (start : (Token.startTag name attributes).ReadsBack)
      (isRaw : isRawTextName (String.ofList name) = true) (inner : RawBody name body)
      (stop : (Token.endTag name).ReadsBack) (rest : Legible ts) :
      Legible (.startTag name attributes :: (rawTokens body ++ .endTag name :: ts))

/-- A token with its spelling as its source. -/
def Token.written (t : Token) : Lexeme := ⟨t, t.spelling⟩

theorem map_written_rawTokens (body : List Char) :
    (rawTokens body).map Token.written = rawLexemes body := by
  unfold rawTokens rawLexemes
  split <;> rfl

/-! ### Steps of a scan -/

theorem scanFrom_nil : scanFrom [] = ⟨[], .finished []⟩ := by
  rw [scanFrom]
  rfl

theorem scanFrom_of_readToken {cs rest : List Char} {l : Lexeme}
    (h : readToken cs = .lexeme l rest) (hn : l.token.rawTextName? = none) :
    scanFrom cs = (scanFrom rest).prepend [l] := by
  rw [scanFrom_eq, h]
  simp only [hn]

theorem scanFrom_of_readBody {cs rest body rest' name : List Char} {l : Lexeme}
    (h : readToken cs = .lexeme l rest) (hn : l.token.rawTextName? = some name)
    (hb : readBody name 0 rest = .closed body rest') :
    scanFrom cs = (scanFrom rest').prepend (l :: rawLexemes body) := by
  rw [scanFrom_eq, h]
  simp only [hn, hb]

/-- Reading what was written from legible tokens finds these tokens. -/
theorem scanFrom_spell {ts : List Token} (h : Legible ts) :
    scanFrom (spell ts) = ⟨ts.map Token.written, .finished []⟩ := by
  induction h with
  | nil => exact scanFrom_nil
  | @cons t ts reads plain ends rest ih =>
    rw [spell_cons, scanFrom_of_readToken (reads _ ends) plain, ih]
    rfl
  | @raw name attributes body ts start isRaw inner stop rest ih =>
    have hend : scanFrom ((Token.endTag name).spelling ++ spell ts) =
        ⟨(Token.endTag name).written :: ts.map Token.written, .finished []⟩ := by
      rw [scanFrom_of_readToken (stop _ trivial) rfl, ih]
      rfl
    -- the reader stops at the end tag that is written behind the body
    have hbody := inner _ (endsElement_spelling stop (spell ts))
    rw [spell_cons, spell_append, spell_rawTokens, spell_cons,
      scanFrom_of_readBody (start _ trivial) (if_pos isRaw) hbody, hend]
    simp [Scan.prepend, map_written_rawTokens, Token.written]

/-! ## The tokens of a page are legible -/

/-- The tokens that a scan found, without their sources. -/
def Scan.tokens (s : Scan) : List Token := s.lexemes.map Lexeme.token

@[simp] theorem Scan.tokens_prepend (ls : List Lexeme) (s : Scan) :
    (s.prepend ls).tokens = ls.map Lexeme.token ++ s.tokens := List.map_append

/-- What is written starts with the character that the text starts with. -/
theorem head?_spell_scanFrom {cs : List Char} {c : Char}
    (h : c ∈ (spell (scanFrom cs).tokens).head?) : c ∈ cs.head? := by
  have hfirst : ∀ l rest, readToken cs = .lexeme l rest →
      ∀ ts, c ∈ (spell (l.token :: ts)).head? → c ∈ cs.head? := by
    intro l rest hr ts hc
    rcases readToken_cases hr with ⟨tail, rfl, ht⟩ | ⟨body, hne, -, -, rfl⟩
    · obtain ⟨tail', hs⟩ := Token.spelling_of_isCharacters (isCharacters_of_readTag ht)
      rw [spell_cons, hs] at hc
      exact hc
    -- a text is its own source
    · obtain ⟨d, body, rfl⟩ := List.exists_cons_of_ne_nil hne
      rw [← source_append_rest hr]
      exact hc
  unfold scanFrom at h
  split at h
  · cases h
  · cases h
  · rename_i l rest hr
    split at h
    · exact hfirst l rest hr _ h
    · split at h
      · exact hfirst l rest hr _ h
      · exact hfirst l rest hr _ h

/-- What starts with a tag is written with a tag at its start. -/
theorem atTag_spell_scanFrom {cs : List Char} (h : AtTag cs) :
    AtTag (spell (scanFrom cs).tokens) :=
  fun c hc => h c (head?_spell_scanFrom hc)

theorem exists_startTag_of_rawTextName? {t : Token} {name : List Char}
    (h : t.rawTextName? = some name) :
    ∃ attributes, t = .startTag name attributes ∧ isRawTextName (String.ofList name) = true := by
  cases t with
  | startTag n attributes =>
    simp only [Token.rawTextName?] at h
    split at h
    · rename_i hr
      cases h
      exact ⟨attributes, rfl, hr⟩
    · cases h
  | _ => cases h

/-- The tokens of a text that is read to its end. -/
theorem legible_scanFrom {cs lost : List Char} (h : (scanFrom cs).ending = .finished lost) :
    Legible (scanFrom cs).tokens := by
  fun_induction scanFrom cs with
  | case1 => exact .nil
  | case2 => cases h
  | case3 cs l rest hr hn ih =>
    refine .cons (readsBack_of_readToken hr) hn ?_ (ih h)
    have hends := endsAt_of_readToken hr
    cases ht : l.token with
    | text body =>
      rw [ht] at hends
      exact atTag_spell_scanFrom hends
    | _ => trivial
  | case4 => cases h
  | case5 cs l rest hr name hn body rest' hb ih =>
    obtain ⟨attributes, ht, hraw⟩ := exists_startTag_of_rawTextName? hn
    obtain ⟨e, behind, hre, hte⟩ := endsElement_of_readBody hb
    -- what is behind the body starts with its end tag, which the rest of the scan has read
    have htail : (scanFrom rest').tokens = .endTag name :: (scanFrom behind).tokens := by
      rw [scanFrom_of_readToken hre (by rw [hte]; rfl), Scan.tokens_prepend]
      simp [hte]
    have hrest := ih h
    rw [htail] at hrest
    cases hrest with
    | cons reads _ _ rest =>
      have hall : ((scanFrom rest').prepend (l :: rawLexemes body)).tokens =
          .startTag name attributes ::
            (rawTokens body ++ .endTag name :: (scanFrom behind).tokens) := by
        rw [Scan.tokens_prepend, htail, List.map_cons, ht]
        rfl
      rw [hall]
      exact .raw (ht ▸ readsBack_of_readToken hr) hraw (rawBody_of_readBody hb) reads rest

/-! ## Sources

A token may stand in the page in another way than it is spelled, but only so far as `StandsAs` says:
blanks in an end tag, the case and the blanks of a keyword, and a last bracket that is missing. -/

/-- Whether a token can be read from that source. -/
def Token.StandsAs : Token → List Char → Prop
  | .endTag name, source => ∃ content closing, closing <+: ['>'] ∧ name = endName content ∧
      source = '<' :: '/' :: content ++ closing
  | .instruction body, source => ∃ closing, closing <+: ['>'] ∧
      source = '<' :: '?' :: body ++ '?' :: closing
  | .cdata body, source => ∃ word, word.map Char.toLower = "[cdata[".toList ∧
      source = '<' :: '!' :: word ++ body ++ [']', ']', '>']
  | .doctype body, source => ∃ word blanks, word.map Char.toLower = "doctype".toList ∧
      blanks.all isMarkupBlank ∧ source = '<' :: '!' :: word ++ blanks ++ body ++ ['>']
  | t, source => source = t.spelling

theorem standsAs_of_readBang {cs rest : List Char} {l : Lexeme}
    (h : readBang cs = .lexeme l rest) : l.token.StandsAs l.source := by
  obtain ⟨c, tail, what, closes, token, hk, rfl, hr⟩ := readBang_cases h
  obtain ⟨front, hsrc, hs, ht⟩ := readSection_split hr
  have hdoctype : doctypeOf ('!' :: front) = .ok l.token → l.token.StandsAs l.source := by
    intro ht
    obtain ⟨word, blanks, c, body, hw, hb, -, heq, rfl⟩ := doctype_content ht
    rw [heq, hsrc]
    exact ⟨word, blanks, hw, hb, by simp⟩
  cases hk with
  | comment =>
    obtain ⟨body, heq, rfl⟩ := comment_content ht (splitWhere_closes hs)
    rw [heq, hsrc]
    show _ = (Token.comment body).spelling
    simp
  | cdata =>
    obtain ⟨word, c, body, hw, -, heq, rfl⟩ := cdata_content ht (splitWhere_closes hs)
    rw [heq, hsrc]
    exact ⟨word ++ [c], hw, by simp⟩
  | doctype => exact hdoctype ht
  | lowerDoctype => exact hdoctype ht

/-- What `splitAtClose` finds for the bracket. -/
theorem prefix_splitAtClose (cs : List Char) : (splitAtClose cs).2.1 <+: ['>'] := by
  rcases (splitAtClose_cases cs).2 with h | ⟨h, -⟩
  · simp [h]
  · simp [h]

/-- A token stands in the page as it may. -/
theorem standsAs_of_readToken {cs rest : List Char} {l : Lexeme}
    (h : readToken cs = .lexeme l rest) : l.token.StandsAs l.source := by
  rcases readToken_cases h with ⟨tail, rfl, ht⟩ | ⟨body, -, -, -, rfl⟩
  · rcases readTag_cases ht with ⟨tail, rfl, hb⟩ | ⟨tail, rfl, he⟩ | ⟨tail, rfl, hi⟩ | ⟨-, he⟩
    · exact standsAs_of_readBang hb
    · cases he
      exact ⟨_, _, prefix_splitAtClose tail, rfl, rfl⟩
    · simp only [readInstruction] at hi
      split at hi
      · rename_i hlen
        cases hi
        refine ⟨_, prefix_splitAtClose tail, ?_⟩
        conv_lhs => rw [← List.dropLast_append_getLast? '?' (Option.mem_def.2 hlen.2)]
        simp
      · cases hi
    · obtain ⟨content, rfl, -, -⟩ := readElement_frame he
      show (tagOf content).StandsAs _
      have hspell := spelling_tagOf content
      unfold tagOf at hspell ⊢
      split <;> rename_i hlast
      · rw [if_pos hlast] at hspell
        exact hspell.symm
      · rw [if_neg hlast] at hspell
        exact hspell.symm
  · exact rfl

/-- Every token of a page stands in it as it may. -/
theorem standsAs_of_mem_lexemes {cs : List Char} :
    ∀ l ∈ (scanFrom cs).lexemes, l.token.StandsAs l.source := by
  fun_induction scanFrom cs with
  | case1 => exact fun _ h => absurd h List.not_mem_nil
  | case2 => exact fun _ h => absurd h List.not_mem_nil
  | case3 cs l rest hr _ ih =>
    intro l' hl'
    rcases List.mem_cons.1 hl' with rfl | hl'
    · exact standsAs_of_readToken hr
    · exact ih l' hl'
  | case4 cs l rest hr =>
    intro l' hl'
    obtain rfl := List.mem_singleton.1 hl'
    exact standsAs_of_readToken hr
  | case5 cs l rest hr _ _ body rest' _ ih =>
    intro l' hl'
    rcases List.mem_append.1 hl' with hl' | hl'
    · rcases List.mem_cons.1 hl' with rfl | hl'
      · exact standsAs_of_readToken hr
      · unfold rawLexemes at hl'
        split at hl'
        · cases hl'
        · obtain rfl := List.mem_singleton.1 hl'
          exact rfl
    · exact ih l' hl'

theorem flatMap_source_rawLexemes (body : List Char) :
    (rawLexemes body).flatMap Lexeme.source = body := by
  unfold rawLexemes
  split
  · rename_i h
    rw [h]
    rfl
  · exact List.append_nil body

/-- A text without a token is empty or a bracket, which is lost. -/
theorem lost_of_readToken {cs lost : List Char} (h : readToken cs = .finished lost) :
    cs = lost ∧ lost <+: ['<'] := by
  have hsection : ∀ what closes token cs, readSection what closes token cs ≠ .finished lost := by
    intro what closes token cs h
    unfold readSection at h
    split at h
    · cases h
    · split at h <;> cases h
  unfold readToken at h
  split at h
  · cases h
    exact ⟨rfl, List.nil_prefix⟩
  · rename_i c cs
    split at h
    · rename_i hc
      subst hc
      unfold readTag at h
      split at h
      · cases h
        exact ⟨rfl, List.prefix_rfl⟩
      · unfold readBang at h
        split at h
        · cases h
        · split at h
          · exact absurd h (hsection _ _ _ _)
          · split at h
            · exact absurd h (hsection _ _ _ _)
            · split at h
              · exact absurd h (hsection _ _ _ _)
              · cases h
      · cases h
      · unfold readInstruction at h
        dsimp only at h
        split at h <;> cases h
      · unfold readElement at h
        split at h <;> cases h
    · cases h

/-- The sources of the tokens, one behind the other, are the text up to what is lost. -/
theorem flatMap_source_scanFrom {cs lost : List Char} (h : (scanFrom cs).ending = .finished lost) :
    (scanFrom cs).lexemes.flatMap Lexeme.source ++ lost = cs ∧ lost <+: ['<'] := by
  fun_induction scanFrom cs with
  | case1 cs lost' hr =>
    cases h
    obtain ⟨rfl, hlost⟩ := lost_of_readToken hr
    exact ⟨rfl, hlost⟩
  | case2 => cases h
  | case3 cs l rest hr _ ih =>
    obtain ⟨happ, hlost⟩ := ih h
    refine ⟨?_, hlost⟩
    calc ((scanFrom rest).prepend [l]).lexemes.flatMap Lexeme.source ++ lost
        = l.source ++ ((scanFrom rest).lexemes.flatMap Lexeme.source ++ lost) := by
          simp [Scan.prepend]
      _ = cs := by rw [happ, source_append_rest hr]
  | case4 => cases h
  | case5 cs l rest hr _ _ body rest' hb ih =>
    obtain ⟨happ, hlost⟩ := ih h
    refine ⟨?_, hlost⟩
    calc ((scanFrom rest').prepend (l :: rawLexemes body)).lexemes.flatMap Lexeme.source ++ lost
        = l.source ++ (body ++ ((scanFrom rest').lexemes.flatMap Lexeme.source ++ lost)) := by
          simp [Scan.prepend, flatMap_source_rawLexemes]
      _ = cs := by rw [happ, append_of_readBody hb, source_append_rest hr]

end PageMend.Markup
