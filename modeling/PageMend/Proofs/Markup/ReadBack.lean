import Mathlib.Data.List.Basic
import Mathlib.Data.List.DropRight
import Mathlib.Data.List.TakeWhile
import PageMend.Markup.Scan

/-!
# Tokens read back

A token that was read can be written down and read again, whatever stands behind it: the reader
stops at the same place and finds the same token (`readsBack_of_readToken`). Only a text needs a
neighbour of the right kind, because a text goes on up to the next bracket (`Token.EndsAt`).

The readers of a tag look at a text from left to right and stop at a closing bracket, so what they
find in front of it does not depend on what is behind. `splitOutsideQuotes_frame`,
`splitWhere_frame` and `splitAtClose_close` say this for the three ways to look for the bracket,
and each kind of token inherits it.
-/

namespace PageMend.Markup

open Text (isMarkupBlank)

/-! ## Where a tag ends does not depend on what follows -/

/-- Dropping characters stops at one that is not to be dropped. -/
theorem dropWhile_stops {p : Char → Bool} {cs rest : List Char} {c : Char}
    (h : cs.dropWhile p = c :: rest) : p c = false := by
  have hp := List.head?_dropWhile_not p cs
  rw [h] at hp
  exact hp

theorem splitOutsideQuotes_frame {quote : Option Char} {cs front behind : List Char}
    (h : splitOutsideQuotes quote cs = some (front, behind)) (rest : List Char) :
    splitOutsideQuotes quote (front ++ '>' :: rest) = some (front, rest) := by
  fun_induction splitOutsideQuotes quote cs generalizing front behind with
  | case1 => cases h
  | case2 =>
    cases h
    rfl
  | case3 c cs hc ih =>
    obtain ⟨p, hp, hf⟩ := Option.map_eq_some_iff.1 h
    cases hf
    rw [List.cons_append, splitOutsideQuotes, if_neg hc, ih hp]
    rfl
  | case4 quote c cs ih =>
    obtain ⟨p, hp, hf⟩ := Option.map_eq_some_iff.1 h
    cases hf
    rw [List.cons_append, splitOutsideQuotes, ih hp]
    rfl

theorem splitWhere_frame {closes : List Char → Bool} {seen cs front behind : List Char}
    (h : splitWhere closes seen cs = some (front, behind)) (rest : List Char) :
    splitWhere closes seen (front ++ '>' :: rest) = some (front, rest) := by
  fun_induction splitWhere closes seen cs generalizing front behind with
  | case1 => cases h
  | case2 seen c cs hc =>
    cases h
    simp only [List.nil_append, splitWhere, hc.2, and_self, if_true]
  | case3 seen c cs hc ih =>
    obtain ⟨p, hp, hf⟩ := Option.map_eq_some_iff.1 h
    cases hf
    rw [List.cons_append, splitWhere, if_neg hc, ih hp]
    rfl

/-- Characters other than the closing bracket only move from the text to what was seen. -/
theorem splitWhere_append_left {closes : List Char → Bool} {skipped : List Char}
    (h : '>' ∉ skipped) (seen cs : List Char) :
    splitWhere closes seen (skipped ++ cs) =
      (splitWhere closes (skipped.reverse ++ seen) cs).map fun p => (skipped ++ p.1, p.2) := by
  induction skipped generalizing seen with
  | nil => simp
  | cons c skipped ih =>
    obtain ⟨hc, hs⟩ := not_or.1 (mt List.mem_cons.2 h)
    rw [List.cons_append, splitWhere, if_neg (fun hp => hc hp.1.symm), ih hs, Option.map_map,
      List.reverse_cons, List.append_assoc, List.singleton_append]
    rfl

/-- What was seen matters only as far as the closing test can tell. -/
theorem splitWhere_congr {closes : List Char → Bool} (seen seen' : List Char)
    (h : ∀ more, closes (more ++ seen) = closes (more ++ seen')) (cs : List Char) :
    splitWhere closes seen cs = splitWhere closes seen' cs := by
  induction cs generalizing seen seen' with
  | nil => rfl
  | cons c cs ih =>
    have hnow : closes seen = closes seen' := h []
    have hlater := ih (c :: seen) (c :: seen') fun more => by
      simpa using h (more ++ [c])
    rw [splitWhere, splitWhere, hnow, hlater]

theorem splitAtClose_close {content : List Char} (h : '>' ∉ content) (rest : List Char) :
    splitAtClose (content ++ '>' :: rest) = (content, ['>'], rest) := by
  have hc : ∀ c ∈ content, decide (c ≠ '>') = true := fun c hc =>
    decide_eq_true fun e => h (e ▸ hc)
  have htail : List.dropWhile (fun c => decide (c ≠ '>')) (content ++ '>' :: rest) =
      '>' :: rest := by
    rw [List.dropWhile_append_of_pos hc]
    rfl
  have hfront : List.takeWhile (fun c => decide (c ≠ '>')) (content ++ '>' :: rest) = content := by
    rw [List.takeWhile_append_of_pos hc]
    exact List.append_nil content
  simp only [splitAtClose, htail, hfront]
  rfl

/-- A tag is closed by a bracket, or by the end of the text. -/
theorem splitAtClose_cases (cs : List Char) :
    '>' ∉ (splitAtClose cs).1 ∧
      ((splitAtClose cs).2.1 = ['>'] ∨
        (splitAtClose cs).2.1 = [] ∧ (splitAtClose cs).2.2 = []) := by
  constructor
  · intro h
    have hp := List.mem_takeWhile_imp (p := fun c => decide (c ≠ '>')) (l := cs) h
    exact of_decide_eq_true hp rfl
  · unfold splitAtClose
    cases hd : cs.dropWhile (fun c => decide (c ≠ '>')) with
    | nil => exact .inr ⟨rfl, rfl⟩
    | cons c tail =>
      have hc : c = '>' := not_not.1 (of_decide_eq_false (dropWhile_stops hd))
      exact .inl (by rw [hc]; rfl)

/-! ## Tokens that read back -/

/-- Whether a text is over or goes on with a tag. -/
def AtTag (rest : List Char) : Prop := ∀ c ∈ rest.head?, c = '<'

@[simp] theorem atTag_nil : AtTag [] := fun _ h => nomatch h

@[simp] theorem atTag_cons (c : Char) (cs : List Char) : AtTag (c :: cs) ↔ c = '<' := by
  simp [AtTag]

/-- Whether a token is over where `rest` begins. A text goes on up to the next bracket; every
other token has a last character of its own. -/
def Token.EndsAt : Token → List Char → Prop
  | .text _, rest => AtTag rest
  | _, _ => True

@[simp] theorem readToken_bracket (cs : List Char) : readToken ('<' :: cs) = readTag cs := by
  rw [readToken, if_pos rfl]

theorem readTag_bang (cs : List Char) : readTag ('!' :: cs) = readBang cs := rfl

theorem readTag_slash (cs : List Char) : readTag ('/' :: cs) = readEnd cs := rfl

theorem readTag_question (cs : List Char) : readTag ('?' :: cs) = readInstruction cs := rfl

/-- Only the first character behind a token matters. -/
theorem Token.EndsAt.append {t : Token} {cs rest rest' : List Char} (h : t.EndsAt (cs ++ rest))
    (hr : AtTag rest') : t.EndsAt (cs ++ rest') := by
  cases t with
  | text body =>
    cases cs with
    | nil => exact hr
    | cons c cs => exact h
  | _ => trivial

/-- A token that is read wherever it is written. -/
def Token.ReadsBack (t : Token) : Prop :=
  ∀ rest, t.EndsAt rest → readToken (t.spelling ++ rest) = .lexeme ⟨t, t.spelling⟩ rest

theorem takeWhile_ne_append {body rest : List Char} (hb : '<' ∉ body) (hr : AtTag rest) :
    (body ++ rest).takeWhile (· ≠ '<') = body ∧ (body ++ rest).dropWhile (· ≠ '<') = rest := by
  have hc : ∀ c ∈ body, decide (c ≠ '<') = true := fun c hc =>
    decide_eq_true fun e => hb (e ▸ hc)
  rw [List.takeWhile_append_of_pos hc, List.dropWhile_append_of_pos hc]
  cases rest with
  | nil => exact ⟨List.append_nil body, rfl⟩
  | cons c cs =>
    obtain rfl := (atTag_cons c cs).1 hr
    exact ⟨List.append_nil body, rfl⟩

theorem readsBack_text {body : List Char} (hne : body ≠ []) (hb : '<' ∉ body) :
    (Token.text body).ReadsBack := by
  intro rest hr
  obtain ⟨c, cs, rfl⟩ := List.exists_cons_of_ne_nil hne
  obtain ⟨hc, hcs⟩ := not_or.1 (mt List.mem_cons.2 hb)
  obtain ⟨htake, hdrop⟩ := takeWhile_ne_append hcs hr
  show readToken (c :: (cs ++ rest)) = _
  rw [readToken, if_neg (Ne.symm hc)]
  simp only [htake, hdrop]
  rfl

theorem readsBack_endTag {name : List Char} (hn : '>' ∉ name) (ht : endName name = name) :
    (Token.endTag name).ReadsBack := by
  intro rest _
  have hs : (Token.endTag name).spelling ++ rest = '<' :: '/' :: (name ++ '>' :: rest) := by
    simp
  rw [hs, readToken_bracket, readTag_slash]
  simp only [readEnd, splitAtClose_close hn, ht]
  rfl

theorem readsBack_instruction {body : List Char} (hne : body ≠ []) (hb : '>' ∉ body) :
    (Token.instruction body).ReadsBack := by
  intro rest _
  have hs : (Token.instruction body).spelling ++ rest =
      '<' :: '?' :: ((body ++ ['?']) ++ '>' :: rest) := by
    simp
  have hc : '>' ∉ body ++ ['?'] := by simpa using hb
  have hlen : 1 < (body ++ ['?']).length := by
    have := List.length_pos_iff.2 hne
    simp only [List.length_append, List.length_singleton]
    omega
  rw [hs, readToken_bracket, readTag_question]
  simp only [readInstruction, splitAtClose_close hc]
  rw [if_pos ⟨hlen, List.getLast?_concat⟩, List.dropLast_concat]
  simp

/-! ### Tags -/

/-- A tag is written with its content as it is. -/
theorem spelling_tagOf (content : List Char) :
    (tagOf content).spelling = '<' :: content ++ ['>'] := by
  unfold tagOf
  split
  · rename_i hlast
    have hc : content.dropLast ++ ['/'] = content :=
      List.dropLast_append_getLast? '/' (Option.mem_def.2 hlast)
    -- the slash at the end is no part of the name or the attributes, and comes back at the end
    have hsplit : (splitName content.dropLast).1 ++ (splitName content.dropLast).2 =
        content.dropLast := List.takeWhile_append_dropWhile
    show '<' :: (splitName content.dropLast).1 ++ (splitName content.dropLast).2 ++ ['/', '>'] = _
    calc '<' :: (splitName content.dropLast).1 ++ (splitName content.dropLast).2 ++ ['/', '>']
        = '<' :: ((splitName content.dropLast).1 ++ (splitName content.dropLast).2) ++ ['/', '>'] :=
          by rw [List.cons_append]
      _ = '<' :: content.dropLast ++ (['/'] ++ ['>']) := by rw [hsplit]; rfl
      _ = '<' :: content ++ ['>'] := by rw [← List.append_assoc, List.cons_append, hc]
  · have hsplit : (splitName content).1 ++ (splitName content).2 = content :=
      List.takeWhile_append_dropWhile
    show '<' :: (splitName content).1 ++ (splitName content).2 ++ ['>'] = _
    rw [List.cons_append, hsplit]

/-- The content of a tag that no other kind of markup starts with. -/
def StartsElement (cs : List Char) : Prop :=
  cs ≠ [] ∧ ∀ c ∈ cs.head?, c ≠ '!' ∧ c ≠ '/' ∧ c ≠ '?'

theorem readTag_of_startsElement {cs : List Char} (h : StartsElement cs) :
    readTag cs = readElement cs := by
  unfold readTag
  split
  · exact absurd rfl h.1
  · exact absurd rfl (h.2 '!' rfl).1
  · exact absurd rfl (h.2 '/' rfl).2.1
  · exact absurd rfl (h.2 '?' rfl).2.2
  · rfl

/-- A tag that was found once is found again, because quotation marks count from its start. -/
theorem readElement_frame {cs rest : List Char} {l : Lexeme} (h : readElement cs = .lexeme l rest) :
    ∃ content, l = ⟨tagOf content, '<' :: content ++ ['>']⟩ ∧ cs = content ++ '>' :: rest ∧
      ∀ rest', readElement (content ++ '>' :: rest') = .lexeme l rest' := by
  unfold readElement at h
  split at h
  · cases h
  · rename_i content behind hs
    cases h
    refine ⟨content, rfl, (splitOutsideQuotes_append hs).symm, fun rest' => ?_⟩
    rw [readElement, splitOutsideQuotes_frame hs]

/-! ### End tags -/

theorem endName_eq_rdropWhile {content : List Char} (h : ¬ content.all isMarkupBlank) :
    endName content = content.rdropWhile isMarkupBlank := if_neg h

/-- A name that was freed of the blanks at its end has none left. -/
theorem endName_endName (content : List Char) : endName (endName content) = endName content := by
  by_cases h : content.all isMarkupBlank
  · have he : endName content = content := if_pos h
    rw [he, he]
  · rw [endName_eq_rdropWhile h]
    have hne : content.rdropWhile isMarkupBlank ≠ [] := by
      rw [Ne, List.rdropWhile_eq_nil_iff]
      simpa using h
    have hlast := List.rdropWhile_last_not isMarkupBlank content hne
    have hall : ¬ (content.rdropWhile isMarkupBlank).all isMarkupBlank := fun ha =>
      hlast (List.all_eq_true.1 ha _ (List.getLast_mem hne))
    rw [endName_eq_rdropWhile hall, List.rdropWhile_idempotent]

theorem prefix_endName (content : List Char) : endName content <+: content := by
  by_cases h : content.all isMarkupBlank
  · have he : endName content = content := if_pos h
    simp [he]
  · rw [endName_eq_rdropWhile h]
    exact List.rdropWhile_prefix isMarkupBlank content

/-! ### Comments, CDATA sections and document types

These end at the first bracket at which a test of the text in front succeeds. A comment is written
as it was read. The other two may be written with another keyword, which is harmless because their
tests cannot tell the keywords apart. -/

theorem splitWhere_closes {closes : List Char → Bool} {seen cs front behind : List Char}
    (h : splitWhere closes seen cs = some (front, behind)) :
    closes (front.reverse ++ seen) = true := by
  fun_induction splitWhere closes seen cs generalizing front behind with
  | case1 => cases h
  | case2 seen c cs hc =>
    cases h
    exact hc.2
  | case3 seen c cs hc ih =>
    obtain ⟨p, hp, hf⟩ := Option.map_eq_some_iff.1 h
    cases hf
    simpa using ih hp

theorem readSection_eq {what : Construct} {closes : List Char → Bool}
    {token : List Char → Except Fault Token} {cs front rest : List Char} {t : Token}
    (hs : splitWhere closes ['!'] cs = some (front, rest)) (ht : token ('!' :: front) = .ok t) :
    readSection what closes token cs = .lexeme ⟨t, '<' :: '!' :: front ++ ['>']⟩ rest := by
  simp only [readSection, hs, ht]

theorem readSection_split {what : Construct} {closes : List Char → Bool}
    {token : List Char → Except Fault Token} {cs rest : List Char} {l : Lexeme}
    (h : readSection what closes token cs = .lexeme l rest) :
    ∃ front, l.source = '<' :: '!' :: front ++ ['>'] ∧
      splitWhere closes ['!'] cs = some (front, rest) ∧ token ('!' :: front) = .ok l.token := by
  unfold readSection at h
  split at h
  · cases h
  · rename_i front rest' hs
    split at h
    · cases h
    · rename_i t ht
      cases h
      exact ⟨front, rfl, hs, ht⟩

/-- The kinds of sections: the character behind the exclamation mark, the test that ends the
section, and how its token is made. -/
inductive SectionKind :
    Char → Construct → (List Char → Bool) → (List Char → Except Fault Token) → Prop
  | cdata : SectionKind '[' .cdata closesCData cdataOf
  | comment : SectionKind '-' .comment closesComment commentOf
  | doctype : SectionKind 'D' .doctype closesDoctype doctypeOf
  | lowerDoctype : SectionKind 'd' .doctype closesDoctype doctypeOf

section
variable {c : Char} {what : Construct} {closes : List Char → Bool}
  {token : List Char → Except Fault Token}

theorem SectionKind.readBang_eq (k : SectionKind c what closes token) (cs : List Char) :
    readBang (c :: cs) = readSection what closes token (c :: cs) := by
  cases k <;> rfl

theorem SectionKind.ne_close (k : SectionKind c what closes token) : c ≠ '>' := by
  cases k <;> decide

end

/-- What is read behind an exclamation mark is a section of one of the kinds. -/
theorem readBang_cases {cs rest : List Char} {l : Lexeme} (h : readBang cs = .lexeme l rest) :
    ∃ c tail what closes token, SectionKind c what closes token ∧ cs = c :: tail ∧
      readSection what closes token cs = .lexeme l rest := by
  unfold readBang at h
  split at h
  · cases h
  · rename_i c tail
    split at h
    · rename_i hc
      subst hc
      exact ⟨_, _, _, _, _, .cdata, rfl, h⟩
    · split at h
      · rename_i hc
        subst hc
        exact ⟨_, _, _, _, _, .comment, rfl, h⟩
      · split at h
        · rename_i hc
          rcases hc with rfl | rfl
          · exact ⟨_, _, _, _, _, .doctype, rfl, h⟩
          · exact ⟨_, _, _, _, _, .lowerDoctype, rfl, h⟩
        · cases h

/-- A section that was found once is found again, whatever stands behind it. -/
theorem readBang_frame {cs rest : List Char} {l : Lexeme} (h : readBang cs = .lexeme l rest) :
    ∃ front, l.source = '<' :: '!' :: front ++ ['>'] ∧
      ∀ rest', readBang (front ++ '>' :: rest') = .lexeme l rest' := by
  obtain ⟨c, tail, what, closes, token, hk, rfl, hr⟩ := readBang_cases h
  obtain ⟨front, hsrc, hs, ht⟩ := readSection_split hr
  -- the reader looks at the first character only to choose the kind of section
  have hl : l = ⟨l.token, '<' :: '!' :: front ++ ['>']⟩ := by rw [← hsrc]
  have happ := splitWhere_append hs
  -- the section is not empty, because its first character is no closing bracket
  cases front with
  | nil => exact absurd (List.cons.inj happ).1.symm hk.ne_close
  | cons d front =>
    obtain rfl := (List.cons.inj happ).1
    refine ⟨d :: front, hsrc, fun rest' => ?_⟩
    rw [List.cons_append, hk.readBang_eq, hl]
    exact readSection_eq (splitWhere_frame hs rest') ht

/-- The content of a comment is its body between two pairs of hyphens. -/
theorem comment_content {front : List Char} {t : Token} (ht : commentOf ('!' :: front) = .ok t)
    (hc : closesComment (front.reverse ++ ['!']) = true) :
    ∃ body, t = .comment body ∧ front = ['-', '-'] ++ body ++ ['-', '-'] := by
  simp only [closesComment, Bool.and_eq_true, decide_eq_true_eq, List.isPrefixOf_iff_prefix] at hc
  obtain ⟨hlen, behind, hb⟩ := hc
  unfold commentOf commentBody? at ht
  split at ht
  · cases ht
  · rename_i body hbody
    cases ht
    split at hbody
    · rename_i hp
      cases hbody
      obtain ⟨inner, hi⟩ := List.isPrefixOf_iff_prefix.1 hp
      obtain rfl : front = '-' :: '-' :: inner := (List.cons.inj hi).2.symm
      -- the hyphens at the end are not those at the start, because of the length
      have hrev : inner.reverse ++ ['-', '-', '!'] = '-' :: '-' :: behind := by
        simpa using hb.symm
      rcases hr : inner.reverse with _ | ⟨a, _ | ⟨b, body⟩⟩
      · simp [List.reverse_eq_nil_iff.1 hr] at hlen
      · simp [List.reverse_eq_iff.1 hr] at hlen
      · obtain ⟨rfl, rfl, -⟩ : a = '-' ∧ b = '-' ∧ _ := by simpa [hr] using hrev
        obtain rfl : inner = body.reverse ++ ['-', '-'] := by simpa using List.reverse_eq_iff.1 hr
        exact ⟨body.reverse, by simp, by simp⟩
    · cases hbody

/-- A CDATA section is closed by two brackets, so nothing in front of another character counts. -/
theorem closesCData_append_cons {c d : Char} (hc : c ≠ ']') (hd : d ≠ ']')
    (more seen seen' : List Char) :
    closesCData (more ++ c :: seen) = closesCData (more ++ d :: seen') := by
  have hc' : (']' == c) = false := beq_eq_false_iff_ne.2 (Ne.symm hc)
  have hd' : (']' == d) = false := beq_eq_false_iff_ne.2 (Ne.symm hd)
  rcases more with _ | ⟨a, _ | ⟨b, more⟩⟩
  · simp [closesCData, List.isPrefixOf, hc', hd']
  · simp [closesCData, List.isPrefixOf, hc', hd']
  · simp [closesCData, List.isPrefixOf]

theorem closesDoctype_append {seen : List Char} (h : seen.count '<' = seen.count '>')
    (more : List Char) : closesDoctype (more ++ seen) = closesDoctype more := by
  simp [closesDoctype, List.count_append, h]

/-- Characters that are a keyword but for the case of letters are none that the keyword lacks. -/
theorem not_mem_of_map_toLower {word keyword : List Char} {c : Char}
    (hw : word.map Char.toLower = keyword) (hc : c.toLower ∉ keyword) : c ∉ word :=
  fun h => hc (hw ▸ List.mem_map_of_mem h)

/-- If what was seen starts with a pair, and the pair cannot reach back to `c`, then what was seen
since then ends with the pair. -/
theorem ends_with_pair {c q : Char} {since before behind : List Char} (hc : c ≠ q)
    (h : since.reverse ++ c :: before = q :: q :: behind) : ∃ body, since = body ++ [q, q] := by
  match hr : since.reverse with
  | [] =>
    rw [hr] at h
    exact absurd (List.cons.inj h).1 hc
  | [a] =>
    rw [hr] at h
    exact absurd (List.cons.inj (List.cons.inj h).2).1 hc
  | a :: b :: body =>
    obtain ⟨rfl, rfl, -⟩ : a = q ∧ b = q ∧ _ := by simpa [hr] using h
    exact ⟨body.reverse, by simpa using List.reverse_eq_iff.1 hr⟩

/-- The content of a CDATA section is a keyword and its body in front of two brackets. -/
theorem cdata_content {front : List Char} {t : Token} (ht : cdataOf ('!' :: front) = .ok t)
    (hc : closesCData (front.reverse ++ ['!']) = true) :
    ∃ word c body, (word ++ [c]).map Char.toLower = ['[', 'c', 'd', 'a', 't', 'a', '['] ∧
      c ≠ ']' ∧ t = .cdata body ∧ front = word ++ [c] ++ (body ++ [']', ']']) := by
  simp only [closesCData, List.isPrefixOf_iff_prefix] at hc
  obtain ⟨behind, hb⟩ := hc
  unfold cdataOf cdataBody? at ht
  split at ht
  · cases ht
  · rename_i body hbody
    cases ht
    split at hbody
    · rename_i hp
      cases hbody
      have hw : (front.take 7).map Char.toLower = ['[', 'c', 'd', 'a', 't', 'a'] ++ ['['] :=
        (List.cons.inj (eq_of_beq hp)).2
      obtain ⟨word, last, hword, hwl, hl⟩ := List.map_eq_append_iff.1 hw
      obtain ⟨c, rfl, hcl⟩ := List.map_eq_singleton_iff.1 hl
      have hlen : word.length = 6 := by simpa using congrArg List.length hwl
      have hcb : c ≠ ']' := by
        rintro rfl
        exact absurd hcl (by decide)
      obtain ⟨tail, rfl⟩ : ∃ tail, front = word ++ [c] ++ tail :=
        ⟨front.drop 7, by rw [← hword, List.take_append_drop]⟩
      -- the brackets at the end are behind the keyword, because its last character is none of them
      have hseen : tail.reverse ++ c :: (word.reverse ++ ['!']) = ']' :: ']' :: behind := by
        simpa using hb.symm
      obtain ⟨body, rfl⟩ := ends_with_pair hcb hseen
      refine ⟨word, c, body, ?_, hcb, ?_, rfl⟩
      · rw [List.map_append, hwl]
        simp [hcl]
      · have hdrop : List.drop 8 ('!' :: (word ++ [c] ++ (body ++ [']', ']']))) =
            body ++ [']', ']'] := List.drop_left' (by simp [hlen])
        have hrest : ('!' :: (word ++ [c] ++ (body ++ [']', ']']))).length - 10 = body.length := by
          simp only [List.length_cons, List.length_append, List.length_nil, hlen]
          omega
        rw [hdrop, hrest, List.take_left]
    · cases hbody

/-- The content of a document type is a keyword, blanks and its body. -/
theorem doctype_content {front : List Char} {t : Token}
    (ht : doctypeOf ('!' :: front) = .ok t) :
    ∃ word blanks c body, word.map Char.toLower = ['d', 'o', 'c', 't', 'y', 'p', 'e'] ∧
      blanks.all isMarkupBlank ∧ isMarkupBlank c = false ∧
      t = .doctype (c :: body) ∧ front = word ++ blanks ++ c :: body := by
  unfold doctypeOf doctypeBody? at ht
  split at ht
  · cases ht
  · cases ht
  · rename_i body hne hbody
    cases ht
    split at hbody
    · rename_i hp
      have hdrop : (front.drop 7).dropWhile isMarkupBlank = body := Option.some.inj hbody
      cases hd : body with
      | nil => exact absurd hd hne
      | cons c body =>
        subst hd
        refine ⟨front.take 7, (front.drop 7).takeWhile isMarkupBlank, c, body,
          (List.cons.inj (eq_of_beq hp)).2, List.all_takeWhile, dropWhile_stops hdrop, rfl, ?_⟩
        rw [← hdrop, List.append_assoc, List.takeWhile_append_dropWhile, List.take_append_drop]
    · cases hbody

/-- The keyword in front of a section can be taken away from the text and what was found. -/
theorem splitWhere_of_append_left {closes : List Char → Bool}
    {skipped seen cs front rest : List Char} (hk : '>' ∉ skipped)
    (h : splitWhere closes seen (skipped ++ cs) = some (skipped ++ front, rest)) :
    splitWhere closes (skipped.reverse ++ seen) cs = some (front, rest) := by
  rw [splitWhere_append_left hk] at h
  obtain ⟨⟨front', rest'⟩, hp, he⟩ := Option.map_eq_some_iff.1 h
  obtain ⟨hf, rfl⟩ := Prod.mk.inj he
  rw [hp]
  exact congrArg (fun f => some (f, rest')) (List.append_cancel_left hf)

/-- A section that is found at its own bracket reads back. -/
theorem SectionKind.readsBack {c : Char} {what : Construct} {closes : List Char → Bool}
    {token : List Char → Except Fault Token} {t : Token} (k : SectionKind c what closes token)
    (tail : List Char)
    (hspell : t.spelling = '<' :: '!' :: c :: tail ++ ['>'])
    (ht : token ('!' :: c :: tail) = .ok t)
    (hs : ∀ rest, splitWhere closes ['!'] (c :: tail ++ '>' :: rest) = some (c :: tail, rest)) :
    t.ReadsBack := by
  intro rest _
  rw [hspell, List.append_assoc, List.singleton_append]
  show readToken ('<' :: '!' :: c :: (tail ++ '>' :: rest)) = _
  rw [readToken_bracket, readTag_bang, k.readBang_eq]
  exact readSection_eq (hs rest) ht

theorem readsBack_comment {body : List Char}
    (h : ∀ rest, splitWhere closesComment ['!'] (['-', '-'] ++ body ++ ['-', '-'] ++ '>' :: rest) =
      some (['-', '-'] ++ body ++ ['-', '-'], rest)) : (Token.comment body).ReadsBack := by
  have hb : commentBody? ('!' :: '-' :: ('-' :: body ++ ['-', '-'])) = some body := by
    rw [commentBody?, if_pos (by rfl)]
    simp
  have ht : commentOf ('!' :: '-' :: ('-' :: body ++ ['-', '-'])) = .ok (.comment body) := by
    simp only [commentOf, hb]
  exact SectionKind.comment.readsBack _ (by simp) ht h

theorem readsBack_cdata {body : List Char}
    (h : ∀ rest, splitWhere closesCData ['['] (body ++ [']', ']'] ++ '>' :: rest) =
      some (body ++ [']', ']'], rest)) : (Token.cdata body).ReadsBack := by
  have hb : cdataBody? ('!' :: '[' :: (['C', 'D', 'A', 'T', 'A', '['] ++ body ++ [']', ']'])) =
      some body := by
    rw [cdataBody?, if_pos (by rfl)]
    simp
  have ht : cdataOf ('!' :: '[' :: (['C', 'D', 'A', 'T', 'A', '['] ++ body ++ [']', ']'])) =
      .ok (.cdata body) := by
    simp only [cdataOf, hb]
  apply SectionKind.cdata.readsBack _ (by simp) ht
  intro rest
  show splitWhere closesCData ['!'] (['[', 'C', 'D', 'A', 'T', 'A', '['] ++ body ++ [']', ']'] ++
    '>' :: rest) = _
  -- the closing test cannot look past the last character of the keyword
  have hseen := splitWhere_congr (['[', 'C', 'D', 'A', 'T', 'A', '['].reverse ++ ['!']) ['[']
    fun more => closesCData_append_cons (by decide) (by decide) more _ _
  rw [List.append_assoc, List.append_assoc, ← List.append_assoc body,
    splitWhere_append_left (by decide), hseen, h rest]
  simp

theorem readsBack_doctype {c : Char} {body : List Char} (hc : isMarkupBlank c = false)
    (h : ∀ rest, splitWhere closesDoctype [] (c :: body ++ '>' :: rest) =
      some (c :: body, rest)) : (Token.doctype (c :: body)).ReadsBack := by
  have hb : doctypeBody? ('!' :: 'D' :: (['O', 'C', 'T', 'Y', 'P', 'E', ' '] ++ c :: body)) =
      some (c :: body) := by
    rw [doctypeBody?, if_pos (by rfl)]
    show some ((' ' :: c :: body).dropWhile isMarkupBlank) = _
    rw [List.dropWhile_cons_of_pos (by decide), List.dropWhile_cons_of_neg (by simp [hc])]
  have ht : doctypeOf ('!' :: 'D' :: (['O', 'C', 'T', 'Y', 'P', 'E', ' '] ++ c :: body)) =
      .ok (.doctype (c :: body)) := by
    simp only [doctypeOf, hb]
  apply SectionKind.doctype.readsBack _ (by simp) ht
  intro rest
  show splitWhere closesDoctype ['!'] (['D', 'O', 'C', 'T', 'Y', 'P', 'E', ' '] ++ c :: body ++
    '>' :: rest) = _
  rw [List.append_assoc, splitWhere_append_left (by decide),
    splitWhere_congr _ [] fun more => by rw [List.append_nil, closesDoctype_append (by decide)],
    h rest]
  simp

/-! ## Every token that is read reads back -/

theorem readsBack_of_commentOf {front : List Char} {t : Token}
    (hs : ∀ rest, splitWhere closesComment ['!'] (front ++ '>' :: rest) = some (front, rest))
    (ht : commentOf ('!' :: front) = .ok t) : t.ReadsBack := by
  obtain ⟨body, rfl, rfl⟩ := comment_content ht (splitWhere_closes (hs []))
  exact readsBack_comment hs

theorem readsBack_of_cdataOf {front : List Char} {t : Token}
    (hs : ∀ rest, splitWhere closesCData ['!'] (front ++ '>' :: rest) = some (front, rest))
    (ht : cdataOf ('!' :: front) = .ok t) : t.ReadsBack := by
  obtain ⟨word, c, body, hw, hc, rfl, rfl⟩ := cdata_content ht (splitWhere_closes (hs []))
  apply readsBack_cdata
  intro rest
  have hseen := splitWhere_congr ((word ++ [c]).reverse ++ ['!']) ['['] fun more => by
    rw [List.reverse_append]
    exact closesCData_append_cons hc (by decide) more (word.reverse ++ ['!']) []
  rw [← hseen]
  apply splitWhere_of_append_left (not_mem_of_map_toLower hw (by decide))
  simpa using hs rest

/-- Neither the keyword of a document type nor the blanks behind it count as brackets. -/
theorem bracket_not_mem_keyword {word blanks : List Char} {c : Char}
    (hw : word.map Char.toLower = ['d', 'o', 'c', 't', 'y', 'p', 'e'])
    (hb : blanks.all isMarkupBlank) (hc : c = '<' ∨ c = '>') : c ∉ word ++ blanks := by
  intro hm
  have hblank : c ∈ blanks → isMarkupBlank c = true := List.all_eq_true.1 hb c
  rcases List.mem_append.1 hm with hm | hm <;> rcases hc with rfl | rfl
  · exact not_mem_of_map_toLower hw (by decide) hm
  · exact not_mem_of_map_toLower hw (by decide) hm
  · exact absurd (hblank hm) (by decide)
  · exact absurd (hblank hm) (by decide)

theorem readsBack_of_doctypeOf {front : List Char} {t : Token}
    (hs : ∀ rest, splitWhere closesDoctype ['!'] (front ++ '>' :: rest) = some (front, rest))
    (ht : doctypeOf ('!' :: front) = .ok t) : t.ReadsBack := by
  obtain ⟨word, blanks, c, body, hw, hb, hc, rfl, rfl⟩ := doctype_content ht
  apply readsBack_doctype hc
  intro rest
  -- the closing test counts brackets, and there are none in front of the body
  have hcount : ∀ d, d = '<' ∨ d = '>' → ((word ++ blanks).reverse ++ ['!']).count d = 0 := by
    intro d hd
    apply List.count_eq_zero.2
    intro hm
    rcases List.mem_append.1 hm with hm | hm
    · exact bracket_not_mem_keyword hw hb hd (List.mem_reverse.1 hm)
    · rcases hd with rfl | rfl <;> exact absurd (List.mem_singleton.1 hm) (by decide)
  have heq : ((word ++ blanks).reverse ++ ['!']).count '<' =
      ((word ++ blanks).reverse ++ ['!']).count '>' := by
    rw [hcount '<' (.inl rfl), hcount '>' (.inr rfl)]
  have hseen : ∀ cs, splitWhere closesDoctype ((word ++ blanks).reverse ++ ['!']) cs =
      splitWhere closesDoctype [] cs :=
    splitWhere_congr _ _ fun more => by rw [List.append_nil, closesDoctype_append heq]
  rw [← hseen]
  apply splitWhere_of_append_left (bracket_not_mem_keyword hw hb (.inr rfl))
  simpa using hs rest

theorem readsBack_of_readBang {cs rest : List Char} {l : Lexeme}
    (h : readBang cs = .lexeme l rest) : l.token.ReadsBack := by
  obtain ⟨c, tail, what, closes, token, hk, rfl, hr⟩ := readBang_cases h
  obtain ⟨front, -, hs, ht⟩ := readSection_split hr
  have hframe := splitWhere_frame hs
  cases hk with
  | comment => exact readsBack_of_commentOf hframe ht
  | cdata => exact readsBack_of_cdataOf hframe ht
  | doctype => exact readsBack_of_doctypeOf hframe ht
  | lowerDoctype => exact readsBack_of_doctypeOf hframe ht

theorem startsElement_content {content rest : List Char}
    (h : StartsElement (content ++ '>' :: rest)) (rest' : List Char) :
    StartsElement (content ++ '>' :: rest') := by
  cases content with
  | nil => exact ⟨List.cons_ne_nil _ _, fun c hc => by cases hc; decide⟩
  | cons c content => exact ⟨List.cons_ne_nil _ _, h.2⟩

theorem readToken_tag {content rest rest' : List Char}
    (hs : StartsElement (content ++ '>' :: rest))
    (h : readElement (content ++ '>' :: rest') =
      .lexeme ⟨tagOf content, '<' :: content ++ ['>']⟩ rest') :
    readToken ('<' :: content ++ ['>'] ++ rest') =
      .lexeme ⟨tagOf content, '<' :: content ++ ['>']⟩ rest' := by
  rw [List.append_assoc, List.singleton_append]
  show readToken ('<' :: (content ++ '>' :: rest')) = _
  rw [readToken_bracket, readTag_of_startsElement (startsElement_content hs rest'), h]

theorem readTag_cases {cs rest : List Char} {l : Lexeme} (h : readTag cs = .lexeme l rest) :
    (∃ tail, cs = '!' :: tail ∧ readBang tail = .lexeme l rest) ∨
      (∃ tail, cs = '/' :: tail ∧ readEnd tail = .lexeme l rest) ∨
      (∃ tail, cs = '?' :: tail ∧ readInstruction tail = .lexeme l rest) ∨
      StartsElement cs ∧ readElement cs = .lexeme l rest := by
  unfold readTag at h
  split at h
  · cases h
  · exact .inl ⟨_, rfl, h⟩
  · exact .inr (.inl ⟨_, rfl, h⟩)
  · exact .inr (.inr (.inl ⟨_, rfl, h⟩))
  · rename_i hnil hbang hslash hquestion
    refine .inr (.inr (.inr ⟨⟨hnil, fun c hc => ⟨?_, ?_, ?_⟩⟩, h⟩))
    all_goals
      rintro rfl
      obtain ⟨tail, rfl⟩ := List.head?_eq_some_iff.1 hc
    · exact hbang tail rfl
    · exact hslash tail rfl
    · exact hquestion tail rfl

theorem readToken_cases {cs rest : List Char} {l : Lexeme} (h : readToken cs = .lexeme l rest) :
    (∃ tail, cs = '<' :: tail ∧ readTag tail = .lexeme l rest) ∨
      ∃ body, body ≠ [] ∧ '<' ∉ body ∧ AtTag rest ∧ l = ⟨.text body, body⟩ := by
  unfold readToken at h
  split at h
  · cases h
  · rename_i c cs
    split at h
    · rename_i hc
      exact .inl ⟨cs, by rw [hc], h⟩
    · rename_i hc
      cases h
      refine .inr ⟨_, List.cons_ne_nil _ _, fun hm => ?_, fun d hd => ?_, rfl⟩
      · rcases List.mem_cons.1 hm with he | hm
        · exact hc he.symm
        · exact of_decide_eq_true (List.mem_takeWhile_imp (p := fun c => decide (c ≠ '<')) hm) rfl
      · obtain ⟨tail, ht⟩ := List.head?_eq_some_iff.1 hd
        exact not_not.1 (of_decide_eq_false (dropWhile_stops ht))

theorem readEnd_cases {cs rest : List Char} {l : Lexeme} (h : readEnd cs = .lexeme l rest) :
    ∃ content, '>' ∉ content ∧ l.token = .endTag (endName content) ∧
      (l.source = '<' :: '/' :: content ++ ['>'] ∨ rest = []) := by
  obtain ⟨hc, hclose⟩ := splitAtClose_cases cs
  simp only [readEnd, Reading.lexeme.injEq] at h
  obtain ⟨rfl, rfl⟩ := h
  refine ⟨_, hc, rfl, ?_⟩
  rcases hclose with hclose | ⟨-, hrest⟩
  · exact .inl (by rw [hclose])
  · exact .inr hrest

theorem readInstruction_cases {cs rest : List Char} {l : Lexeme}
    (h : readInstruction cs = .lexeme l rest) :
    ∃ body, body ≠ [] ∧ '>' ∉ body ∧ l.token = .instruction body ∧
      (l.source = (Token.instruction body).spelling ∨ rest = []) := by
  obtain ⟨hc, hclose⟩ := splitAtClose_cases cs
  simp only [readInstruction] at h
  split at h
  · rename_i hlen
    cases h
    have hq := List.dropLast_append_getLast? '?' (Option.mem_def.2 hlen.2)
    refine ⟨(splitAtClose cs).1.dropLast, fun hnil => ?_, fun hm => ?_, rfl, ?_⟩
    · have hl := congrArg List.length hq
      rw [hnil] at hl
      simp only [List.length_append, List.length_nil, List.length_singleton] at hl
      omega
    · exact hc ((List.dropLast_prefix _).subset hm)
    · rcases hclose with hclose | ⟨-, hrest⟩
      · refine .inl ?_
        have hsrc : (splitAtClose cs).1 ++ ['>'] = (splitAtClose cs).1.dropLast ++ ['?', '>'] := by
          conv_lhs => rw [← hq]
          simp
        rw [hclose]
        simpa using hsrc
      · exact .inr hrest
  · cases h

/-- The source of a token in front of other text can stand in front of any other text. -/
theorem readToken_frame {cs rest rest' : List Char} {l : Lexeme} (h : readToken cs = .lexeme l rest)
    (hrest : rest ≠ []) (he : l.token.EndsAt rest') :
    readToken (l.source ++ rest') = .lexeme l rest' := by
  rcases readToken_cases h with ⟨tail, rfl, h⟩ | ⟨body, hne, hb, -, rfl⟩
  · rcases readTag_cases h with ⟨tail, rfl, h⟩ | ⟨tail, rfl, h⟩ | ⟨tail, rfl, h⟩ | ⟨hs, h⟩
    · obtain ⟨front, hsrc, hframe⟩ := readBang_frame h
      rw [hsrc, List.append_assoc, List.singleton_append]
      exact (readToken_bracket _).trans (hframe rest')
    -- a tag that the end of the text cut off has no bracket, but nothing stood behind it either
    · obtain ⟨content, hc, ht, hsrc | hnil⟩ := readEnd_cases h
      · have hl : l = ⟨.endTag (endName content), '<' :: '/' :: content ++ ['>']⟩ := by
          rw [← ht, ← hsrc]
        rw [hl, List.append_assoc, List.singleton_append]
        apply (readToken_bracket _).trans
        show readEnd (content ++ '>' :: rest') = _
        simp only [readEnd, splitAtClose_close hc]
      · exact absurd hnil hrest
    · obtain ⟨body, hne, hb, ht, hsrc | hnil⟩ := readInstruction_cases h
      · have hl : l = ⟨.instruction body, (Token.instruction body).spelling⟩ := by
          rw [← hsrc, ← ht]
        rw [hl]
        exact readsBack_instruction hne hb rest' trivial
      · exact absurd hnil hrest
    · obtain ⟨content, rfl, rfl, hframe⟩ := readElement_frame h
      exact readToken_tag hs (hframe rest')
  · exact readsBack_text hne hb rest' he

/-- A token that was read can be written down and read again. -/
theorem readsBack_of_readToken {cs rest : List Char} {l : Lexeme}
    (h : readToken cs = .lexeme l rest) : l.token.ReadsBack := by
  rcases readToken_cases h with ⟨tail, rfl, h⟩ | ⟨body, hne, hb, -, rfl⟩
  · rcases readTag_cases h with ⟨tail, rfl, h⟩ | ⟨tail, rfl, h⟩ | ⟨tail, rfl, h⟩ | ⟨hs, h⟩
    · exact readsBack_of_readBang h
    · obtain ⟨content, hc, ht, -⟩ := readEnd_cases h
      rw [ht]
      -- the name is read without the blanks behind it, and is written without them
      exact readsBack_endTag (fun hm => hc ((prefix_endName content).subset hm))
        (endName_endName content)
    · obtain ⟨body, hne, hb, ht, -⟩ := readInstruction_cases h
      rw [ht]
      exact readsBack_instruction hne hb
    · obtain ⟨content, rfl, rfl, hframe⟩ := readElement_frame h
      intro rest' _
      rw [spelling_tagOf]
      exact readToken_tag hs (hframe rest')
  · exact readsBack_text hne hb

/-! ## Characters and tags

A token is either made of characters of the page or starts with a bracket of its own. -/

/-- Whether a token is made of characters of the page. -/
def Token.isCharacters : Token → Bool
  | .text _ | .rawText _ => true
  | _ => false

theorem Token.endsAt_of_isCharacters {t : Token} (h : t.isCharacters = false) (rest : List Char) :
    t.EndsAt rest := by
  cases t with
  | text body => cases h
  | _ => trivial

theorem Token.spelling_of_isCharacters {t : Token} (h : t.isCharacters = false) :
    ∃ tail, t.spelling = '<' :: tail := by
  cases t with
  | text body => cases h
  | rawText body => cases h
  | _ => exact ⟨_, rfl⟩

theorem SectionKind.isCharacters {c : Char} {what : Construct} {closes : List Char → Bool}
    {token : List Char → Except Fault Token} {content : List Char} {t : Token}
    (k : SectionKind c what closes token) (h : token content = .ok t) : t.isCharacters = false := by
  -- two of the kinds make the same token
  have hdoctype : doctypeOf content = .ok t → t.isCharacters = false := by
    intro h
    unfold doctypeOf at h
    split at h <;> cases h
    rfl
  cases k with
  | cdata =>
    unfold cdataOf at h
    split at h <;> cases h
    rfl
  | comment =>
    unfold commentOf at h
    split at h <;> cases h
    rfl
  | doctype => exact hdoctype h
  | lowerDoctype => exact hdoctype h

theorem isCharacters_of_readTag {cs rest : List Char} {l : Lexeme}
    (h : readTag cs = .lexeme l rest) : l.token.isCharacters = false := by
  rcases readTag_cases h with ⟨tail, rfl, h⟩ | ⟨tail, rfl, h⟩ | ⟨tail, rfl, h⟩ | ⟨-, h⟩
  · obtain ⟨c, tail, what, closes, token, hk, rfl, hr⟩ := readBang_cases h
    obtain ⟨front, -, -, ht⟩ := readSection_split hr
    exact hk.isCharacters ht
  · obtain ⟨content, -, ht, -⟩ := readEnd_cases h
    rw [ht]
    rfl
  · obtain ⟨body, -, -, ht, -⟩ := readInstruction_cases h
    rw [ht]
    rfl
  · obtain ⟨content, rfl, -, -⟩ := readElement_frame h
    show (tagOf content).isCharacters = false
    unfold tagOf
    split <;> rfl

/-- Where a token was read, it was over. -/
theorem endsAt_of_readToken {cs rest : List Char} {l : Lexeme}
    (h : readToken cs = .lexeme l rest) : l.token.EndsAt rest := by
  rcases readToken_cases h with ⟨tail, rfl, h⟩ | ⟨body, -, -, hat, rfl⟩
  · exact Token.endsAt_of_isCharacters (isCharacters_of_readTag h) rest
  · exact hat

end PageMend.Markup
