import PageMend.Proofs.Yaml.Plain

/-!
# Quoted scalars are read back

Between single quotation marks a line break stands as itself, with the blanks in front of the next
word that the reader passes over (`readQuoted_singleQuoted`). Between double ones every character
can be written, and all of them on one line (`readQuoted_doubleQuoted`).
-/

namespace PageMend.Yaml

open Written

variable {double : Bool} {start finish mark m : Mark} {gap : Gap} {c : Char} {cs rest : List Char}

/-! ## One character -/

theorem readQuoted_blank (hm : Apart m c) (h : isBlank c = true) :
    readQuoted double start finish gap (place m (c :: rest)) =
      readQuoted double start finish (gap.blank c) (place (m.behind c) rest) := by
  rw [place_cons, readQuoted, if_neg (Bool.eq_false_iff.1 hm.atSeparator_eq), if_pos h]

theorem readQuoted_break (hm : Apart m c) (h : isBreak c = true) :
    readQuoted double start finish gap (place m (c :: rest)) =
      readQuoted double start finish (gap.lineBreak c) (place (m.behind c) rest) := by
  have hblank : ¬isBlank c = true := fun hb => by
    rw [not_isBreak_of_isBlank hb] at h
    cases h
  rw [place_cons, readQuoted, if_neg (Bool.eq_false_iff.1 hm.atSeparator_eq), if_neg hblank,
    if_pos h]

/-- A character of a word that is neither a quotation mark nor a backslash. -/
theorem readQuoted_character (hm : Apart m c) (hblank : isBlank c = false)
    (hbreak : isBreak c = false)
    (hplain : if double then c ≠ '"' ∧ c ≠ '\\' else c ≠ '\'') :
    readQuoted double start finish gap (place m (c :: rest)) =
      (readQuoted double start finish .none (place (m.behind c) rest)).map
        (.prepend (gap.text ++ [c])) := by
  rw [place_cons, readQuoted, if_neg (Bool.eq_false_iff.1 hm.atSeparator_eq)]
  cases double with
  | true => simp [hblank, hbreak, hplain.1, hplain.2]
  | false => simp [hblank, hbreak, show c ≠ '\'' from hplain]

/-! ## Single quotation marks -/

/-- A quotation mark inside is doubled. -/
theorem readQuoted_doubled (hm : m.column ≠ 0) :
    readQuoted false start finish gap (place m ('\'' :: '\'' :: rest)) =
      (readQuoted false start finish .none (place ((m.behind '\'').behind '\'') rest)).map
        (.prepend (gap.text ++ ['\''])) := by
  have hafter : after? '\'' (place (m.behind '\'') ('\'' :: rest)) =
      some (place ((m.behind '\'').behind '\'') rest) := by simp [after?]
  have hm : Apart m '\'' := .inl hm
  rw [place_cons, readQuoted, if_neg (Bool.eq_false_iff.1 hm.atSeparator_eq)]
  simp only [isBlank, isBreak, Char.reduceBEq, Bool.or_self, Bool.false_eq_true, if_false, if_true]
  rw [hafter]

/-- A single quotation mark ends the scalar. -/
theorem readQuoted_single_end (hm : m.column ≠ 0) (hrest : rest.head? ≠ some '\'') :
    readQuoted false start finish gap (place m ('\'' :: rest)) =
      .ok (gap.text, place (m.behind '\'') rest) := by
  have hafter : after? '\'' (place (m.behind '\'') rest) = none := by
    cases rest with
    | nil => rfl
    | cons c rest =>
      have hc : c ≠ '\'' := fun he => hrest (congrArg some he)
      simp [after?, hc]
  have hm : Apart m '\'' := .inl hm
  rw [place_cons, readQuoted, if_neg (Bool.eq_false_iff.1 hm.atSeparator_eq)]
  simp only [isBlank, isBreak, Char.reduceBEq, Bool.or_self, Bool.false_eq_true, if_false, if_true]
  rw [hafter]

theorem Gap.text_breaks {first : Char} (h : first ≠ '\n') (more : List Char) :
    (Gap.breaks first more).text = first :: more := by
  unfold Gap.text
  split
  · rename_i he; cases he
  · rename_i he; cases he; exact absurd rfl h
  · rename_i he; cases he; exact absurd rfl h
  · rename_i he; cases he; rfl
  · rename_i he; cases he

/-- Blanks behind a line break mean nothing. -/
theorem readQuoted_spaces {first : Char} {more : List Char} (n : Nat) :
    readQuoted double start finish (.breaks first more) (place m (spaces n ++ rest)) =
      readQuoted double start finish (.breaks first more) (place (m.over (spaces n)) rest) := by
  induction n generalizing m with
  | zero => rfl
  | succ n ih =>
    rw [spaces_succ, List.cons_append, readQuoted_blank (.inr (by decide)) rfl]
    exact ih

/-- What stands for a character in single quotation marks. -/
theorem readQuoted_single_character (hm : m.column ≠ 0) (hblank : isBlank c = false)
    (hbreak : isBreak c = false) :
    readQuoted false start finish gap
        (place m ((if c = '\'' then ['\''] else []) ++ c :: rest)) =
      (readQuoted false start finish .none
        (place ((m.over (if c = '\'' then ['\''] else [])).behind c) rest)).map
          (.prepend (gap.text ++ [c])) := by
  by_cases hc : c = '\''
  · subst hc
    exact readQuoted_doubled hm
  · rw [if_neg hc]
    exact readQuoted_character (.inl hm) hblank hbreak hc

/-- What a text in single quotation marks is like behind some of it. -/
structure SingleFrom (behindSpace behindBreak : Bool) (cs : List Char) : Prop where
  printable : ∀ c ∈ cs, isPrintable c = true
  no_feed : '\n' ∉ cs
  before : hasSpaceBeforeBreak cs = false
  after : hasSpaceAfterBreak cs = false
  behindSpace : behindSpace = true → startsWith isBreak cs = false
  behindBreak : behindBreak = true → startsWith isSpace cs = false

theorem hasPair_cons {first second : Char → Bool} (h : hasPair first second (c :: cs) = false) :
    hasPair first second cs = false ∧ (first c = true → startsWith second cs = false) := by
  cases cs with
  | nil => exact ⟨rfl, fun _ => rfl⟩
  | cons d cs =>
    obtain ⟨hpair, hcs⟩ := Bool.or_eq_false_iff.1 h
    refine ⟨hcs, fun hc => ?_⟩
    rwa [hc, Bool.true_and] at hpair

theorem SingleFrom.tail {b b' : Bool} (h : SingleFrom b b' (c :: cs)) :
    SingleFrom (isSpace c) (isBreak c) cs where
  printable := (List.forall_mem_cons.1 h.printable).2
  no_feed := fun hmem => h.no_feed (List.mem_cons_of_mem c hmem)
  before := (hasPair_cons h.before).1
  after := (hasPair_cons h.after).1
  behindSpace := (hasPair_cons h.before).2
  behindBreak := (hasPair_cons h.after).2

/-- The two states in which the text may be read: in a line, behind spaces or not, and behind a line
break. -/
inductive SingleGap (m : Mark) : Gap → Bool → Bool → Prop
  | line {bs : List Char} {b : Bool} (hb : b = false → bs = []) (hm : m.column ≠ 0) :
    SingleGap m (.blanks bs) b false
  | below {first : Char} {more : List Char} {b : Bool} (hfirst : first ≠ '\n') :
    SingleGap m (.breaks first more) b true

/-- A line break goes into the gap. -/
theorem SingleGap.lineBreak {b b' : Bool} (hgap : SingleGap m gap b b')
    (h : SingleFrom b b' (c :: cs)) (hbreak : isBreak c = true) :
    SingleGap (m.behind c) (gap.lineBreak c) (isSpace c) true ∧
      (gap.lineBreak c).text = gap.text ++ [c] := by
  have hfeed : c ≠ '\n' := fun he => h.no_feed (he ▸ List.mem_cons_self)
  cases hgap with
  | line hb hm =>
    have hbs := hb (Bool.eq_false_iff.2 fun hspace => by
      have hnone := h.behindSpace hspace
      simp [startsWith, hbreak] at hnone)
    subst hbs
    exact ⟨.below hfeed, Gap.text_breaks hfeed []⟩
  | below hfirst =>
    refine ⟨.below hfirst, ?_⟩
    rw [Gap.lineBreak, Gap.text_breaks hfirst, Gap.text_breaks hfirst, List.cons_append]

/-- The text ends, in a line or behind a line break. -/
theorem readQuoted_singleQuotedFrom_nil {n : Nat} (hn : 0 < n) {b b' : Bool}
    (hgap : SingleGap m gap b b') (hrest : rest.head? ≠ some '\'') :
    readQuoted false start finish gap (place m (singleQuotedFrom n b' [] ++ '\'' :: rest)) =
      .ok (gap.text, place (m.over (singleQuotedFrom n b' [] ++ ['\''])) rest) := by
  cases hgap with
  | line hb hm =>
    rw [singleQuotedFrom, if_neg Bool.false_ne_true, List.nil_append,
      readQuoted_single_end hm hrest]
    rfl
  | below hfirst =>
    have hindented : (m.over (spaces n)).column ≠ 0 := by
      rw [Mark.column_over_spaces]
      omega
    rw [singleQuotedFrom, if_pos rfl, readQuoted_spaces, readQuoted_single_end hindented hrest,
      Mark.over_append]
    rfl

/-- A word goes on, or begins behind the gap. -/
theorem readQuoted_single_word {inner : List Char} (hm : m.column ≠ 0)
    (hblank : isBlank c = false) (hbreak : isBreak c = false)
    (hnext : ∀ m : Mark, m.column ≠ 0 →
      readQuoted false start finish .none (place m (inner ++ '\'' :: rest)) =
        .ok (cs, place (m.over (inner ++ ['\''])) rest)) :
    readQuoted false start finish gap
        (place m ((if c = '\'' then ['\''] else []) ++ c :: (inner ++ '\'' :: rest))) =
      .ok (gap.text ++ c :: cs, place (m.over ((if c = '\'' then ['\''] else []) ++
        c :: (inner ++ ['\'']))) rest) := by
  have hcolumn : ((m.over (if c = '\'' then ['\''] else [])).behind c).column ≠ 0 := by
    rw [Mark.column_behind hbreak]
    omega
  rw [readQuoted_single_character hm hblank hbreak, hnext _ hcolumn]
  simp [Except.map, Cut.prepend]

theorem readQuoted_singleQuotedFrom {n : Nat} (hn : 0 < n) {b b' : Bool} (h : SingleFrom b b' cs)
    (hgap : SingleGap m gap b b') (hrest : rest.head? ≠ some '\'') :
    readQuoted false start finish gap (place m (singleQuotedFrom n b' cs ++ '\'' :: rest)) =
      .ok (gap.text ++ cs, place (m.over (singleQuotedFrom n b' cs ++ ['\''])) rest) := by
  induction cs generalizing m gap b b' with
  | nil =>
    rw [List.append_nil]
    exact readQuoted_singleQuotedFrom_nil hn hgap hrest
  | cons c cs ih =>
    have htail := h.tail
    cases hbreak : isBreak c with
    | true =>
      rw [hbreak] at htail
      obtain ⟨hgap', htext⟩ := hgap.lineBreak h hbreak
      have hfeed : ¬(c = '\n' ∧ (!b') = true) := fun he => h.no_feed (he.1 ▸ List.mem_cons_self)
      have hapart : Apart m c :=
        .inr (by constructor <;> rintro rfl <;> exact Bool.false_ne_true hbreak)
      rw [singleQuotedFrom, if_pos hbreak, if_neg hfeed, List.nil_append, List.cons_append,
        readQuoted_break hapart hbreak, ih htail hgap', htext]
      simp
    | false =>
      rw [hbreak] at htail
      have hline : ∀ {m : Mark} {bs : List Char} {b : Bool}, (b = false → bs = []) →
          m.column ≠ 0 → SingleFrom b false cs →
          readQuoted false start finish (.blanks bs)
              (place m (singleQuotedFrom n false cs ++ '\'' :: rest)) =
            .ok (bs ++ cs, place (m.over (singleQuotedFrom n false cs ++ ['\''])) rest) :=
        fun hb hm h => ih h (.line hb hm)
      have hspace := isBlank_iff_of_printable (h.printable c List.mem_cons_self)
      rw [singleQuotedFrom, if_neg (Bool.eq_false_iff.1 hbreak)]
      cases hgap with
      | @line bs _ hb hm =>
        rw [if_neg Bool.false_ne_true, List.nil_append]
        cases hblank : isBlank c with
        | true =>
          obtain rfl := hspace.1 hblank
          have hcolumn : (m.behind ' ').column ≠ 0 := by
            rw [Mark.column_behind hbreak]
            omega
          rw [if_neg (by decide), List.nil_append, List.cons_append,
            readQuoted_blank (.inl hm) hblank, Gap.blank,
            hline (absurd · (by decide)) hcolumn htail]
          simp [Gap.text]
        | false =>
          simpa using readQuoted_single_word hm hblank hbreak fun m hm =>
            hline (fun _ => rfl) hm htail
      | below hfirst =>
        have hblank : isBlank c = false := by
          rw [Bool.eq_false_iff, ne_eq, hspace]
          rintro rfl
          exact Bool.noConfusion (h.behindBreak rfl)
        have hindented : (m.over (spaces n)).column ≠ 0 := by
          rw [Mark.column_over_spaces]
          omega
        rw [if_pos rfl, List.append_assoc, List.append_assoc, readQuoted_spaces]
        simpa using readQuoted_single_word hindented hblank hbreak fun m hm =>
          hline (fun _ => rfl) hm htail

/-- A text in single quotation marks is read behind the first one, up to the other. -/
theorem readQuoted_singleQuoted {n : Nat} (hn : 0 < n) (h : canBeSingleQuoted cs = true)
    (hfeed : '\n' ∉ cs) (hm : m.column ≠ 0) (hrest : rest.head? ≠ some '\'') :
    readQuoted false start finish .none (place m (singleQuotedFrom n false cs ++ '\'' :: rest)) =
      .ok (cs, place (m.over (singleQuotedFrom n false cs ++ ['\''])) rest) := by
  simp only [canBeSingleQuoted, Bool.and_eq_true, Bool.not_eq_true', List.all_eq_true] at h
  obtain ⟨⟨hprint, hbefore⟩, hafter⟩ := h
  have hfrom : SingleFrom false false cs := ⟨hprint, hfeed, hbefore, hafter, nofun, nofun⟩
  exact readQuoted_singleQuotedFrom hn hfrom (.line (fun _ => rfl) hm) hrest

theorem printable_singleQuotedFrom {n : Nat} {b : Bool} (h : ∀ c ∈ cs, isPrintable c = true) :
    ∀ c ∈ singleQuotedFrom n b cs, isPrintable c = true := by
  induction cs generalizing b with
  | nil =>
    rw [singleQuotedFrom]
    split
    · exact printable_spaces n
    · exact List.forall_mem_nil _
  | cons c cs ih =>
    obtain ⟨hc, hcs⟩ := List.forall_mem_cons.1 h
    rw [singleQuotedFrom]
    split
    · refine List.forall_mem_append.2 ⟨?_, List.forall_mem_cons.2 ⟨hc, ih hcs⟩⟩
      split <;> simp [isPrintable]
    · refine List.forall_mem_append.2 ⟨List.forall_mem_append.2 ⟨?_, ?_⟩,
        List.forall_mem_cons.2 ⟨hc, ih hcs⟩⟩
      · split
        · exact printable_spaces n
        · exact List.forall_mem_nil _
      · split
        · exact List.forall_mem_singleton.2 rfl
        · exact List.forall_mem_nil _

/-! ## Double quotation marks -/

@[simp] theorem textOf_place : textOf (place m cs) = cs := by
  induction cs generalizing m with
  | nil => rfl
  | cons c cs ih =>
    rw [place_cons, textOf, List.map_cons]
    exact congrArg (c :: ·) ih

/-- The digits of a number in base sixteen are read as values that make it up again. -/
theorem exists_hexValues (n : Nat) :
    ∃ ds, ((Nat.toDigits 16 n).map Char.toUpper).mapM hexValue? = some ds ∧
      ds.foldl (fun n d => 16 * n + d) 0 = n := by
  have hdigit : ∀ d < 16, hexValue? (Nat.digitChar d).toUpper = some d := by decide
  induction n using Nat.strongRecOn with
  | ind n ih =>
    by_cases hn : n < 16
    · refine ⟨[n], ?_, ?_⟩
      · rw [Nat.toDigits_of_lt_base hn]
        simp [hdigit n hn]
      · simp
    · obtain ⟨ds, hds, hval⟩ := ih (n / 16) (by omega)
      refine ⟨ds ++ [n % 16], ?_, ?_⟩
      · rw [Nat.toDigits_of_base_le (by decide) (by omega), List.map_append, List.mapM_append, hds]
        simp [hdigit (n % 16) (Nat.mod_lt _ (by decide))]
      · rw [List.foldl_append, hval]
        simp only [List.foldl_cons, List.foldl_nil]
        omega

theorem length_hexDigits {length n : Nat} (hpos : 0 < length) (h : n < Nat.pow 16 length) :
    (hexDigits length n).length = length := by
  have hlen := (Nat.length_toDigits_le_iff (b := 16) (by decide) hpos).2 h
  rw [hexDigits, List.length_append, List.length_replicate, List.length_map]
  omega

theorem exists_hexValues_hexDigits (length n : Nat) :
    ∃ ds, (hexDigits length n).mapM hexValue? = some ds ∧
      ds.foldl (fun n d => 16 * n + d) 0 = n := by
  rw [hexDigits]
  generalize length - ((Nat.toDigits 16 n).map Char.toUpper).length = zeros
  induction zeros with
  | zero => exact exists_hexValues n
  | succ zeros ih =>
    obtain ⟨ds, hds, hval⟩ := ih
    refine ⟨0 :: ds, ?_, hval⟩
    rw [List.replicate_succ, List.cons_append, List.mapM_cons, hds]
    rfl

/-- A character is read from the digits of its number. -/
theorem readNumbered_hexDigits {length : Nat} (hpos : 0 < length)
    (hc : c.toNat < Nat.pow 16 length) :
    readNumbered length start finish (place m (hexDigits length c.toNat ++ rest)) =
      .ok (c, place (m.over (hexDigits length c.toNat)) rest) := by
  have hlen := length_hexDigits hpos hc
  obtain ⟨ds, hds, hval⟩ := exists_hexValues_hexDigits length c.toNat
  have hcharacter : characterOf (place m (hexDigits length c.toNat)) = .ok c := by
    rw [characterOf, textOf_place, hds]
    simp only [hval]
    rw [if_pos (show c.toNat.isValidChar from c.valid), Char.ofNat_toNat]
  have hshort : ¬(place m (hexDigits length c.toNat ++ rest)).length < length := by
    rw [length_place, List.length_append, hlen]
    omega
  have htake : (place m (hexDigits length c.toNat ++ rest)).take length =
      place m (hexDigits length c.toNat) := by
    rw [place_append, List.take_left' (by rw [length_place, hlen])]
  have hdrop : (place m (hexDigits length c.toNat ++ rest)).drop length =
      place (m.over (hexDigits length c.toNat)) rest := by
    rw [place_append, List.drop_left' (by rw [length_place, hlen])]
  rw [readNumbered, if_neg hshort, htake, hcharacter, hdrop]

/-- An escape is read as its character. -/
theorem readQuoted_escape {es : List Char} (hm : m.column ≠ 0)
    (hread : readEscape start finish m (place (m.behind '\\') (es ++ rest)) =
      .ok (some c, place ((m.behind '\\').over es) rest)) :
    readQuoted true start finish gap (place m ('\\' :: (es ++ rest))) =
      (readQuoted true start finish .none (place (m.over ('\\' :: es)) rest)).map
        (.prepend (gap.text ++ [c])) := by
  have hm : Apart m '\\' := .inl hm
  rw [place_cons, readQuoted, if_neg (Bool.eq_false_iff.1 hm.atSeparator_eq)]
  simp only [isBlank, isBreak, Char.reduceBEq, Char.reduceEq, Bool.or_self, Bool.false_eq_true,
    if_false, if_true]
  split
  · rename_i h
    cases h.symm.trans hread
  · rename_i h
    cases h.symm.trans hread
  · rename_i h
    cases h.symm.trans hread
    rfl

/-- The letter of an escape is read as the character that it stands for. -/
theorem readEscape_letter {letter : Char} (h : escapeLetter? c = some letter) :
    readEscape start finish mark (place m (letter :: rest)) =
      .ok (some c, place (m.behind letter) rest) := by
  unfold escapeLetter? at h
  split at h <;> cases h <;> rfl

/-- The kinds of escapes that tell a number, and how many digits each has. -/
def numberKinds : List (Char × Nat) := [('x', 2), ('u', 4), ('U', 8)]

theorem numberKinds_cases {kind : Char} {length : Nat} (h : (kind, length) ∈ numberKinds) :
    (kind = 'x' ∧ length = 2) ∨ (kind = 'u' ∧ length = 4) ∨ (kind = 'U' ∧ length = 8) := by
  simpa [numberKinds] using h

/-- The number of an escape is read as the character of that number. -/
theorem readEscape_number {length : Nat} {kind : Char} (hkind : (kind, length) ∈ numberKinds)
    (hc : c.toNat < Nat.pow 16 length) :
    readEscape start finish mark (place m (kind :: hexDigits length c.toNat ++ rest)) =
      .ok (some c, place (m.over (kind :: hexDigits length c.toNat)) rest) := by
  have hkind := numberKinds_cases hkind
  have hread : readNumbered length start finish
      (place (m.behind kind) (hexDigits length c.toNat ++ rest)) = .ok (c, _) :=
    readNumbered_hexDigits (by omega) hc
  rcases hkind with ⟨rfl, rfl⟩ | ⟨rfl, rfl⟩ | ⟨rfl, rfl⟩ <;>
    simp [readEscape, isBreak, hread, Except.map, -place_append]

/-- A hexadecimal digit is a character that may stand in a line. -/
theorem hexValue?_spec {d : Char} {value : Nat} (h : hexValue? d = some value) :
    isBreak d = false ∧ isPrintable d = true := by
  have hascii : 48 ≤ d.toNat ∧ d.toNat ≤ 102 := by
    by_contra hno
    have hnone : hexValue? d = none := by
      simp only [hexValue?, Char.isDigit, Char.le_def, UInt32.le_iff_toNat_le, Bool.and_eq_true,
        decide_eq_true_eq, Char.toNat_val, ge_iff_le]
      rw [if_neg, if_neg, if_neg]
      all_goals
        simp
        omega
    cases h.symm.trans hnone
  exact (isPrintable_of_ascii (by omega) (by omega)).symm

theorem hexDigits_spec (length n : Nat) :
    ∀ c ∈ hexDigits length n, isBreak c = false ∧ isPrintable c = true := by
  obtain ⟨ds, hds, -⟩ := exists_hexValues_hexDigits length n
  generalize hexDigits length n = digits at hds
  induction digits generalizing ds with
  | nil => exact List.forall_mem_nil _
  | cons d digits ih =>
    simp only [List.mapM_cons, Option.pure_def, Option.bind_eq_bind, Option.bind_eq_some_iff] at hds
    obtain ⟨value, hvalue, ds, hdigits, -⟩ := hds
    exact List.forall_mem_cons.2 ⟨hexValue?_spec hvalue, ih ds hdigits⟩

/-- The ways in which a character is written between double quotation marks. -/
inductive WrittenAs (c : Char) : List Char → Prop
  | itself (hprint : isPrintable c = true) (hbreak : isBreak c = false)
    (hplain : c ≠ '"' ∧ c ≠ '\\') : WrittenAs c [c]
  | letter {letter : Char} (h : escapeLetter? c = some letter) : WrittenAs c ['\\', letter]
  | number {kind : Char} {length : Nat} (hkind : (kind, length) ∈ numberKinds)
    (hc : c.toNat < Nat.pow 16 length) : WrittenAs c ('\\' :: kind :: hexDigits length c.toNat)

theorem writtenAs_doubleQuotedCharacter (c : Char) : WrittenAs c (doubleQuotedCharacter c) := by
  unfold doubleQuotedCharacter
  split
  · rename_i letter h
    exact .letter h
  · rename_i hnone
    have hne : ∀ d, escapeLetter? d ≠ none → c ≠ d := fun d hd he => hd (he ▸ hnone)
    split
    · rename_i hprint
      refine .itself hprint ?_ ⟨hne _ (by decide), hne _ (by decide)⟩
      simp [isBreak, hne '\n' (by decide), hne '\u2028' (by decide), hne '\u2029' (by decide)]
    split
    · rename_i hsmall
      exact .number (by simp [numberKinds]) (Nat.lt_succ_of_le hsmall)
    split
    · rename_i hsmall
      exact .number (by simp [numberKinds]) (Nat.lt_succ_of_le hsmall)
    · have hmax : c.toNat < 1114112 := by
        have := c.valid
        simp only [UInt32.isValidChar, Nat.isValidChar] at this
        change c.val.toNat < _
        omega
      exact .number (by simp [numberKinds]) (Nat.lt_trans hmax (by decide))

/-- A character is written in one line, with characters that are printable. -/
theorem WrittenAs.spec {es : List Char} (h : WrittenAs c es) :
    ∀ d ∈ es, isBreak d = false ∧ isPrintable d = true := by
  cases h with
  | itself hprint hbreak => exact List.forall_mem_singleton.2 ⟨hbreak, hprint⟩
  | @letter letter h =>
    have hletter : isBreak letter = false ∧ isPrintable letter = true := by
      unfold escapeLetter? at h
      split at h <;> cases h <;> exact ⟨rfl, rfl⟩
    exact List.forall_mem_cons.2 ⟨⟨rfl, rfl⟩, List.forall_mem_singleton.2 hletter⟩
  | @number kind length hkind =>
    have hkind : isBreak kind = false ∧ isPrintable kind = true := by
      rcases numberKinds_cases hkind with ⟨rfl, -⟩ | ⟨rfl, -⟩ | ⟨rfl, -⟩ <;> exact ⟨rfl, rfl⟩
    exact List.forall_mem_cons.2 ⟨⟨rfl, rfl⟩, List.forall_mem_cons.2 ⟨hkind, hexDigits_spec _ _⟩⟩

/-- What stands for a character is read as this character, behind whatever blanks. -/
theorem WrittenAs.readQuoted {es bs text : List Char} {after : List Placed} (h : WrittenAs c es)
    (hm : m.column ≠ 0)
    (hnext : ∀ bs, readQuoted true start finish (.blanks bs) (place (m.over es) rest) =
      .ok (bs ++ text, after)) :
    readQuoted true start finish (.blanks bs) (place m (es ++ rest)) =
      .ok (bs ++ c :: text, after) := by
  -- behind all but a space a new word has begun
  have hword : (Yaml.readQuoted true start finish .none (place (m.over es) rest)).map
      (Cut.prepend (bs ++ [c])) = .ok (bs ++ c :: text, after) := by
    rw [show Gap.none = .blanks [] from rfl, hnext]
    simp [Except.map, Cut.prepend]
  cases h with
  | itself hprint hbreak hplain =>
    cases hb : isBlank c with
    | true =>
      obtain rfl := (isBlank_iff_of_printable hprint).1 hb
      rw [List.singleton_append, readQuoted_blank (.inl hm) hb, Gap.blank]
      simpa using hnext (bs ++ [' '])
    | false =>
      rw [List.singleton_append, readQuoted_character (.inl hm) hb hbreak (by simpa using hplain)]
      exact hword
  | letter h =>
    rw [List.cons_append, readQuoted_escape hm (readEscape_letter h)]
    exact hword
  | number hkind hc =>
    rw [List.cons_append, readQuoted_escape hm (readEscape_number hkind hc)]
    exact hword

/-- A text in double quotation marks is read behind the first one, up to the other. -/
theorem readQuoted_doubleQuoted (hm : m.column ≠ 0) (bs : List Char) :
    readQuoted true start finish (.blanks bs)
        (place m (cs.flatMap doubleQuotedCharacter ++ '"' :: rest)) =
      .ok (bs ++ cs, place (m.over (cs.flatMap doubleQuotedCharacter ++ ['"'])) rest) := by
  induction cs generalizing m bs with
  | nil =>
    have hm : Apart m '"' := .inl hm
    rw [List.flatMap_nil, List.nil_append, place_cons, readQuoted,
      if_neg (Bool.eq_false_iff.1 hm.atSeparator_eq)]
    simp [isBlank, isBreak, Gap.text]
  | cons c cs ih =>
    have hc := writtenAs_doubleQuotedCharacter c
    have hcolumn : (m.over (doubleQuotedCharacter c)).column ≠ 0 := by
      rw [Mark.column_over fun d hd => (hc.spec d hd).1]
      omega
    rw [List.flatMap_cons, List.append_assoc, hc.readQuoted hm (fun bs => ih hcolumn bs)]
    simp

end PageMend.Yaml
