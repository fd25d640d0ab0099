import PageMend.Proofs.Yaml.Place

/-!
# Plain scalars are read back

A plain scalar ends where a colon is followed by a gap, or where a line begins that is indented too
little. A text that can stand plain has no such place in itself, so it is read up to what ends it,
which may be the colon behind a key (`readPlain_key`) or the line behind a value
(`readPlain_value`).
-/

namespace PageMend.Yaml

open Written

/-! ## The next line -/

/-- A character that is no gap and begins no comment. -/
structure IsStart (c : Char) : Prop where
  no_blank : isBlank c = false
  no_break : isBreak c = false
  no_comment : c ≠ '#'
  no_mark : c ≠ byteOrderMark

theorem IsStart.ne_blank {c : Char} (h : IsStart c) : c ≠ ' ' ∧ c ≠ '\t' := by
  have hblank := h.no_blank
  simpa [isBlank] using hblank

/-- A word, or the end of a text. -/
def IsWord (word : List Char) : Prop := ∀ c ∈ word.head?, IsStart c

variable {setting : Setting} {start m : Mark} {word : List Char}

/-- Behind a line break, a plain scalar ends at a line that is indented too little. -/
theorem readPlain_nextLine (hflow : setting.inFlow = false) (hword : IsWord word) {gap : Gap}
    (hgap : gap.isBroken = true) {n : Nat} (hn : m.column + n < setting.margin) :
    readPlain setting start gap (place m (spaces n ++ word)) =
      .ok ⟨[], true, place (m.over (spaces n)) word⟩ := by
  induction n generalizing m gap with
  | zero =>
    cases word with
    | nil => simp [spaces, readPlain, hgap]
    | cons c word =>
      have hc := hword c rfl
      have hends : endsPlain setting gap ⟨c, m⟩ (place (m.behind c) word) = true := by
        have hlt : m.column < setting.margin := hn
        simp [endsPlain, hgap, hflow, hlt]
      simp [spaces, readPlain, hc.no_blank, hc.no_break, hflow, hends, hgap]
  | succ n ih =>
    have hblank : (gap.blank ' ').isBroken = true := by cases gap <;> first | rfl | exact hgap
    have hcolumn : (m.behind ' ').column + n < setting.margin := by
      rw [Mark.column_behind rfl]
      omega
    rw [spaces_succ, List.cons_append, place_cons, readPlain]
    simpa [isBlank] using ih hblank hcolumn

/-! ## The text -/

/-- What a plain text is like behind some of it, with or without a space just before. -/
structure PlainFrom (behindSpace : Bool) (cs : List Char) : Prop where
  printable : ∀ c ∈ cs, isPrintable c = true
  oneLine : OneLine cs
  indicator : hasIndicator behindSpace cs = false
  last : endsWith isSpace cs = false
  nonempty : cs = [] → behindSpace = false

theorem PlainFrom.tail {b : Bool} {c : Char} {cs : List Char} (h : PlainFrom b (c :: cs)) :
    PlainFrom (isBlank c) cs where
  printable := (List.forall_mem_cons.1 h.printable).2
  oneLine := (List.forall_mem_cons.1 h.oneLine).2
  indicator := by
    have hind := h.indicator
    simp only [hasIndicator, Bool.or_eq_false_iff] at hind
    have hc := h.oneLine c List.mem_cons_self
    rw [hc, Bool.or_false] at hind
    exact hind.2
  last := by
    have hlast := h.last
    cases cs with
    | nil => rfl
    | cons d ds => simpa [endsWith] using hlast
  nonempty := by
    rintro rfl
    by_contra hblank
    have hprint := h.printable c List.mem_cons_self
    obtain rfl := (isBlank_iff_of_printable hprint).1 (by simpa using hblank)
    exact Bool.noConfusion h.last

/-- A character of a plain text does not end it. -/
theorem PlainFrom.not_endsPlain (hflow : setting.inFlow = false) {b : Bool} {bs : List Char}
    (hb : b = false → bs = []) {c : Char} {cs rest : List Char} (h : PlainFrom b (c :: cs))
    (hm : Apart m c) {m' : Mark} :
    endsPlain setting (.blanks bs) ⟨c, m⟩ (place m' (cs ++ rest)) = false := by
  have hind := h.indicator
  simp only [hasIndicator, Bool.or_eq_false_iff, Bool.and_eq_false_iff] at hind
  obtain ⟨⟨hcolon, hcomment⟩, -⟩ := hind
  have hcolon' : (c == ':' && Yaml.atGap (place m' (cs ++ rest))) = false := by
    refine Bool.and_eq_false_iff.2 (hcolon.imp_right fun hgap => ?_)
    cases cs with
    | nil => exact nomatch hgap
    | cons d ds => exact hgap
  have hcomment' : (c == '#' && Gap.blanks bs != .none) = false := by
    rcases hcomment with hcomment | hfalse
    · rw [hcomment, Bool.false_and]
    · rw [hb hfalse]
      exact Bool.and_false _
  rw [endsPlain, hm.atSeparator_eq]
  simp only [hcomment', hcolon', hflow, Gap.isBroken, Bool.false_and, Bool.or_false]

/-- A text that can stand plain is read up to what ends it. -/
theorem readPlain_append (hflow : setting.inFlow = false) {b : Bool} {bs cs rest : List Char}
    (hb : b = false → bs = []) (h : PlainFrom b cs)
    (hm : m.column ≠ 0 ∨ ∀ c ∈ cs.head?, c ≠ '-' ∧ c ≠ '.') {t : PlainText}
    (hrest : readPlain setting start .none (place (m.over cs) rest) = .ok t) :
    readPlain setting start (.blanks bs) (place m (cs ++ rest)) = .ok (t.prepend (bs ++ cs)) := by
  induction cs generalizing m b bs with
  | nil =>
    rw [hb (h.nonempty rfl)]
    exact hrest
  | cons c cs ih =>
    have hc := h.oneLine c List.mem_cons_self
    have hcolumn : (m.behind c).column ≠ 0 := by
      rw [Mark.column_behind hc]
      omega
    have htail := h.tail
    rw [List.cons_append, place_cons, readPlain]
    cases hblank : isBlank c with
    | true =>
      rw [hblank] at htail
      have hnext : readPlain setting start (.blanks (bs ++ [c]))
          (place (m.behind c) (cs ++ rest)) = .ok _ :=
        ih (b := true) (fun h => nomatch h) htail (.inl hcolumn) hrest
      simp only [if_true, Gap.isBroken, Bool.false_eq_true, false_and, if_false, Gap.blank]
      rw [hnext, List.append_assoc]
      rfl
    | false =>
      rw [hblank] at htail
      have hnext := ih (fun _ => rfl) htail (.inl hcolumn) hrest
      have hends : endsPlain setting (.blanks bs) ⟨c, m⟩ (place (m.behind c) (cs ++ rest)) =
          false :=
        h.not_endsPlain hflow hb (hm.imp_right fun h => h c rfl)
      simp only [hc, hflow, hends, Bool.false_eq_true, false_and, if_false]
      rw [show Gap.none = .blanks [] from rfl, hnext]
      simp [Except.map, PlainText.prepend, Gap.text]

theorem PlainFrom.of_canBePlain {cs : List Char} (h : canBePlain cs = true) :
    PlainFrom false cs where
  printable := by
    simp only [canBePlain, Bool.and_eq_true, List.all_eq_true] at h
    exact h.1.1.1.1.1.1.1
  oneLine := by
    simp only [canBePlain, Bool.and_eq_true, Bool.not_eq_true', List.any_eq_false] at h
    exact fun c hc => by simpa using h.1.1.1.1.1.1.2 c hc
  indicator := by
    simp only [canBePlain, Bool.and_eq_true, Bool.not_eq_true'] at h
    cases cs with
    | nil => rfl
    | cons c cs =>
      have hind := h.2
      simp only [hasIndicator, Bool.or_eq_false_iff, Bool.and_true] at hind ⊢
      exact ⟨⟨hind.1.1, Bool.and_false _⟩, hind.2⟩
  last := by
    simp only [canBePlain, Bool.and_eq_true, Bool.not_eq_true'] at h
    exact h.1.1.1.1.2
  nonempty := fun _ => rfl

/-- What a text that can stand plain begins with. -/
theorem isStart_of_canBePlain {c : Char} {cs : List Char}
    (h : canBePlain (c :: cs) = true) :
    IsStart c ∧ startsWithIndicator (c :: cs) = false := by
  have hplain := PlainFrom.of_canBePlain h
  have hprint := hplain.printable c List.mem_cons_self
  simp only [canBePlain, Bool.and_eq_true, Bool.not_eq_true'] at h
  obtain ⟨⟨⟨⟨⟨-, hspace⟩, -⟩, -⟩, -⟩, hindicator⟩ := h.1
  refine ⟨⟨?_, hplain.oneLine c List.mem_cons_self, ?_, (ne_of_printable hprint).2.2.2⟩, hindicator⟩
  · rw [Bool.eq_false_iff, ne_eq, isBlank_iff_of_printable hprint]
    rintro rfl
    exact nomatch hspace
  · rintro rfl
    exact nomatch hindicator

/-- A value is read to the end of its line, and on to the first word of the next one. -/
theorem readPlain_value (hflow : setting.inFlow = false) {cs : List Char}
    (h : canBePlain cs = true) (hm : m.column ≠ 0) (hword : IsWord word) {n : Nat}
    (hn : n < setting.margin) :
    readPlain setting start .none (place m (cs ++ '\n' :: (spaces n ++ word))) =
      .ok ⟨cs, true, place (m.over (cs ++ '\n' :: spaces n)) word⟩ := by
  have hline : readPlain setting start .none (place (m.over cs) ('\n' :: (spaces n ++ word))) =
      .ok ⟨[], true, place (m.over (cs ++ '\n' :: spaces n)) word⟩ := by
    have hbroken : (Gap.none.lineBreak '\n').isBroken = true := rfl
    have hcolumn : ((m.over cs).behind '\n').column + n < setting.margin := by
      rw [Mark.column_behind_break rfl]
      omega
    rw [place_cons, readPlain]
    simpa [isBlank, isBreak] using readPlain_nextLine hflow hword hbroken hcolumn
  have hread := readPlain_append hflow (fun _ => rfl) (.of_canBePlain h) (.inl hm) hline
  rw [show Gap.none = .blanks [] from rfl, hread]
  simp [PlainText.prepend]

/-- A key is read up to its colon. -/
theorem readPlain_key (hflow : setting.inFlow = false) {key rest : List Char}
    (h : PlainFrom false key) (hm : ∀ c ∈ key.head?, c ≠ '-' ∧ c ≠ '.')
    (hgap : Written.atGap rest = true) :
    readPlain setting start .none (place m (key ++ ':' :: rest)) =
      .ok ⟨key, false, place (m.over key) (':' :: rest)⟩ := by
  have hcolon : readPlain setting start .none (place (m.over key) (':' :: rest)) =
      .ok ⟨[], false, place (m.over key) (':' :: rest)⟩ := by
    have hends : endsPlain setting .none ⟨':', m.over key⟩ (place ((m.over key).behind ':') rest) =
        true := by
      simp [endsPlain, hgap]
    rw [place_cons, readPlain]
    rw [Gap.none] at hends ⊢
    simp [isBlank, isBreak, hflow, hends, Gap.isBroken]
  have hread := readPlain_append hflow (fun _ => rfl) h (.inr hm) hcolon
  rw [show Gap.none = .blanks [] from rfl, hread]
  simp [PlainText.prepend]

end PageMend.Yaml
