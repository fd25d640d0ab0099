import PageMend.Proofs.Markup.RoundTrip

/-!
# Pages that are written as they were read

A tree keeps the text of a page, but not all of it: a byte-order mark at the start of the page, a
lone bracket at its end, and the way in which some tokens are spelled are lost. So a page comes back
as it was just when it has no such mark, no such bracket and each token in its one normal spelling
(`serialize_eq_self_iff`). A document type in small letters is written in capitals
(`serialize_doctype_ne`).

That there is no other way for a page to come back needs an argument, because what one token loses
another might make up for. It cannot: what is written is read again as the same tokens, each from
its normal spelling, so a page that is written as itself has its tokens in that spelling.
-/

namespace PageMend.Markup

/-! ## A mark at the start -/

/-- Whatever is taken from the front of a text up to a tag, nothing behind the tag matters. -/
theorem takeWhile_append_atTag {p : Char → Bool} (hp : p '<' = false) {rest : List Char}
    (hr : AtTag rest) (body : List Char) : (body ++ rest).takeWhile p = body.takeWhile p := by
  induction body with
  | nil =>
    cases rest with
    | nil => rfl
    | cons c rest =>
      obtain rfl := (atTag_cons c rest).1 hr
      rw [List.nil_append, List.takeWhile_cons, hp]
      rfl
  | cons c body ih => rw [List.cons_append, List.takeWhile_cons, List.takeWhile_cons, ih]

/-- What is written starts with just the characters that the text has in front of its first tag. -/
theorem takeWhile_spell_scanFrom {p : Char → Bool} (hp : p '<' = false) {cs lost : List Char}
    (h : (scanFrom cs).ending = .finished lost) :
    (spell (scanFrom cs).tokens).takeWhile p = cs.takeWhile p := by
  have htag : ∀ tail : List Char, ('<' :: tail).takeWhile p = [] := by
    intro tail
    rw [List.takeWhile_cons, hp]
    rfl
  -- a token at the front is a text up to the next tag, or a tag
  have hfirst : ∀ l rest, readToken cs = .lexeme l rest → ∀ ts,
      (l.token.rawTextName? = none → AtTag rest → AtTag (spell ts)) →
      (spell (l.token :: ts)).takeWhile p = cs.takeWhile p := by
    intro l rest hr ts hts
    rcases readToken_cases hr with ⟨tail, rfl, ht⟩ | ⟨body, -, -, hat, rfl⟩
    · obtain ⟨tail', hs⟩ := Token.spelling_of_isCharacters (isCharacters_of_readTag ht)
      rw [spell_cons, hs, List.cons_append, htag, htag]
    · rw [← source_append_rest hr, spell_cons, takeWhile_append_atTag hp (hts rfl hat),
        takeWhile_append_atTag hp hat]
      rfl
  unfold scanFrom at h ⊢
  split at h
  · rename_i hr
    obtain ⟨rfl, hlost⟩ := lost_of_readToken hr
    rcases List.prefix_cons_iff.1 hlost with rfl | ⟨tail, rfl, -⟩
    · rfl
    · exact (htag tail).symm
  · cases h
  · rename_i l rest hr
    split at h
    · exact hfirst l rest hr _ fun _ => atTag_spell_scanFrom
    -- in front of a body is a start tag
    · rename_i name hn
      split at h
      · cases h
      · refine hfirst l rest hr _ fun hplain => ?_
        rw [hn] at hplain
        cases hplain

/-! ## Pages that come back -/

/-- Tokens that a page may spell in more than one way. -/
def Token.hasVariants : Token → Bool
  | .endTag _ | .instruction _ | .cdata _ | .doctype _ => true
  | _ => false

/-- The other tokens stand in a page as they are written. -/
theorem Token.StandsAs.eq_spelling {t : Token} {source : List Char} (h : t.StandsAs source)
    (hv : t.hasVariants = false) : source = t.spelling := by
  cases t with
  | endTag | instruction | cdata | doctype => cases hv
  | _ => exact h

/-- A page that is written as it was read has no mark at its start: what is written has one mark
less there. -/
theorem head?_ne_mark_of_serialize {page : String} {t : Tree} (h : parse page = .ok t)
    (hs : t.serialize = page) : page.toList.head? ≠ some '\uFEFF' := by
  intro hhead
  obtain ⟨lost, g, he, hg, ho, rfl⟩ := parse_eq_ok.1 h
  obtain ⟨cs, hcs⟩ := List.head?_eq_some_iff.1 hhead
  have hscan : scan page = scanFrom cs := by
    rw [scan, hcs]
    rfl
  have hwritten : '\uFEFF' :: cs = spell (scanFrom cs).tokens := by
    rw [← hcs, ← hscan, ← spelling_of_grow hg ho, hs]
  have hmarks := takeWhile_spell_scanFrom (p := (· == '\uFEFF')) rfl (hscan ▸ he)
  have hlength := congrArg List.length (hwritten ▸ hmarks)
  simp at hlength

/-- A page is written as it was read just if it has no byte-order mark, no bracket is lost at its
end and each of its tokens stands in its normal spelling. Only end tags, instructions, character
data and document types can stand in another. -/
theorem serialize_eq_self_iff {page : String} {t : Tree} (h : parse page = .ok t) :
    (t.serialize = page ↔
      page.toList.head? ≠ some '\uFEFF' ∧ (scan page).ending = .finished [] ∧
        ∀ l ∈ (scan page).lexemes, l.source = l.token.spelling) ∧
      ∀ l ∈ (scan page).lexemes, l.source ≠ l.token.spelling → l.token.hasVariants = true := by
  constructor
  · constructor
    · intro hs
      have hhead := head?_ne_mark_of_serialize h hs
      refine ⟨hhead, ?_⟩
      have hmarks : ¬ ['\uFEFF', '\uFEFF'] <+: page.toList := by
        rintro ⟨cs, hcs⟩
        rw [← hcs] at hhead
        exact hhead rfl
      -- the page is what was written from its own tokens
      have hscan := scan_serialize h hmarks
      rw [hs] at hscan
      rw [hscan]
      refine ⟨rfl, fun l hl => ?_⟩
      obtain ⟨token, -, rfl⟩ := List.mem_map.1 hl
      rfl
    · rintro ⟨hhead, hending, hnormal⟩
      obtain ⟨lost, g, -, hg, ho, rfl⟩ := parse_eq_ok.1 h
      have hsources : (scan page).lexemes.flatMap Lexeme.source ++ [] = withoutMark page.toList :=
        (flatMap_source_scanFrom hending).1
      rw [List.append_nil, withoutMark_eq_self hhead] at hsources
      have hspell : spell (scan page).tokens = (scan page).lexemes.flatMap Lexeme.source := by
        rw [spell, Scan.tokens, List.flatMap_map]
        exact List.flatMap_congr fun l hl => (hnormal l hl).symm
      apply String.toList_inj.1
      calc g.tree.serialize.toList
          = spell (scan page).tokens := spelling_of_grow hg ho
        _ = (scan page).lexemes.flatMap Lexeme.source := hspell
        _ = page.toList := hsources
  · intro l hl hne
    by_contra hv
    exact hne ((standsAs_of_mem_lexemes l hl).eq_spelling (by simpa using hv))

/-- A page of elements that are written as pages are comes back. -/
theorem serialize_eq_self_paragraph :
    ∃ t, parse "<!DOCTYPE html><p class=lead>a<br>b</p>" = .ok t ∧
      t.serialize = "<!DOCTYPE html><p class=lead>a<br>b</p>" := by
  have hp : (parse "<!DOCTYPE html><p class=lead>a<br>b</p>").toOption.isSome = true := by
    decide +kernel
  obtain ⟨t, ht⟩ := Option.isSome_iff_exists.1 hp
  have ht := eq_ok_of_toOption ht
  refine ⟨t, ht, (serialize_eq_self_iff ht).1.2 ⟨by decide, ?_, ?_⟩⟩
  · decide +kernel
  · decide +kernel

/-- Not every page comes back: the keyword of a document type is written in capitals. -/
theorem serialize_doctype_ne : ¬ ∀ page t, parse page = .ok t → t.serialize = page := by
  intro h
  have hw : (parse "<!doctype html>").toOption.map Tree.serialize = some "<!DOCTYPE html>" := by
    decide +kernel
  obtain ⟨t, hp, hs⟩ := exists_ok_of_map hw
  have hsame := h _ t hp
  rw [hs] at hsame
  revert hsame
  decide

end PageMend.Markup
