import PageMend.Proofs.Report.Grammar

/-!
# Every text of a value is read

The reader takes each text of the grammar for the value that it spells, whatever blanks are in it
and whatever follows it, as long as a number or a word is not continued (`readValue_of_spells`). It
is shown along the derivation of the text.
-/

namespace PageMend.Json

/-! ## Strings -/

theorem readStringTail_char {c : Char} {xs : List Char} (h : SpellsChar c xs) (rest : List Char) :
    readStringTail (xs ++ rest) =
      (readStringTail rest).map fun (s, rest) => (c :: s, rest) := by
  cases h with
  | plain hquote hslash hcontrol =>
    have hlit : ¬(c = '\\' ∨ c.toNat < 0x20) := by
      rintro (h | h)
      exacts [hslash h, Nat.not_lt_of_le hcontrol h]
    rw [List.singleton_append, readStringTail, if_neg hlit]
    · exact hquote
    · exact fun _ _ _ _ _ h => absurd h hslash
    · exact fun _ _ h => absurd h hslash
  | @letter _ l h =>
    have hu : l ≠ 'u' := by
      rintro rfl
      simp [unescapeLetter?] at h
    rw [List.cons_append, List.singleton_append, readStringTail, h]
    exact fun _ _ _ _ _ h => absurd h hu
  | quad h hn => simp only [List.cons_append, List.nil_append, readStringTail, h, if_pos hn]
  | @pair _ _ _ _ _ _ _ _ _ high low hh hl he =>
    have hn : ¬(high < 0xD800 ∨ 0xE000 ≤ high) := by
      intro hn
      rw [ofSurrogates?, if_neg (by omega)] at he
      cases he
    simp only [List.cons_append, List.nil_append, readStringTail, hh, if_neg hn, hl,
      Option.bind_some, he]

/-- The inside of a string is read up to the quotation mark behind it. -/
theorem readStringTail_of_spells {s cs : List Char} (h : SpellsChars s cs) (rest : List Char) :
    readStringTail (cs ++ '"' :: rest) = some (s, rest) := by
  induction h with
  | nil => rw [List.nil_append, readStringTail]
  | cons hc _ ih =>
    rw [List.append_assoc, readStringTail_char hc, ih]
    rfl

/-! ## The reader without its bounds -/

/-- The value in front of a text, and the rest as a plain list. -/
def takeValue (cs : List Char) : Option (Json × List Char) :=
  (readValue cs).map fun (v, rest) => (v, rest.1)

def takeItems (cs : List Char) : Option (List Json × List Char) :=
  (readItems cs).map fun (vs, rest) => (vs, rest.1)

def takeMembers (cs : List Char) : Option (List (String × Json) × List Char) :=
  (readMembers cs).map fun (ms, rest) => (ms, rest.1)

theorem takeValue_eq (cs : List Char) :
    takeValue cs =
      match skipSpace cs with
      | [] => none
      | c :: rest =>
        if c = '"' then (readStringTail rest).map fun (s, r) => (.string (String.ofList s), r)
        else if c = '[' then
          match skipSpace rest with
          | ']' :: r => some (.array [], r)
          | _ => (takeItems rest).map fun (vs, r) => (.array vs, r)
        else if c = '\x7b' then
          match skipSpace rest with
          | '\x7d' :: r => some (.object [], r)
          | _ => (takeMembers rest).map fun (ms, r) => (.object ms, r)
        else if isBare c then
          (ofBare? (c :: rest.takeWhile isBare)).map (·, rest.dropWhile isBare)
        else none := by
  rw [takeValue, readValue]
  -- the cases are those of the reader, and in each the other side goes the same way
  split
  · rename_i h
    rw [h]
    rfl
  · rename_i c rest h
    simp only [h]
    split
    · split
      · rename_i ht
        simp only [ht]
        rfl
      · rename_i ht
        simp only [ht]
        rfl
    split
    · split
      · rename_i he
        simp only [he]
        rfl
      · rename_i hne
        split
        · rename_i he
          exact absurd he (hne _)
        · simp only [takeItems, Option.map_map]
          rfl
    split
    · split
      · rename_i he
        simp only [he]
        rfl
      · rename_i hne
        split
        · rename_i he
          exact absurd he (hne _)
        · simp only [takeMembers, Option.map_map]
          rfl
    split
    · simp only [Option.map_map]
      rfl
    · rfl

theorem takeItems_eq (cs : List Char) :
    takeItems cs =
      (takeValue cs).bind fun (v, rest) =>
        match skipSpace rest with
        | ']' :: r => some ([v], r)
        | ',' :: r => (takeItems r).map fun (vs, r) => (v :: vs, r)
        | _ => none := by
  rw [takeItems, readItems]
  split
  · rename_i h
    rw [takeValue, h]
    rfl
  · rename_i v rest h
    simp only [takeValue, h, Option.map_some, Option.bind_some]
    split
    · rename_i he
      simp only [he]
      rfl
    · rename_i he
      simp only [he, takeItems, Option.map_map]
      rfl
    · rename_i hend hmore
      split
      · rename_i he
        exact absurd he (hend _)
      · rename_i he
        exact absurd he (hmore _)
      · rfl

theorem takeMembers_eq (cs : List Char) :
    takeMembers cs =
      match skipSpace cs with
      | '"' :: rest =>
        (readStringTail rest).bind fun (k, rest) =>
          match skipSpace rest with
          | ':' :: rest =>
            (takeValue rest).bind fun (v, rest) =>
              match skipSpace rest with
              | '\x7d' :: r => some ([(String.ofList k, v)], r)
              | ',' :: r =>
                (takeMembers r).map fun (ms, r) => ((String.ofList k, v) :: ms, r)
              | _ => none
          | _ => none
      | _ => none := by
  rw [takeMembers, readMembers]
  split
  · rename_i rest h
    simp only [h]
    split
    · rename_i ht
      simp only [ht]
      rfl
    · rename_i k rest' ht
      simp only [ht, Option.bind_some]
      split
      · rename_i rest'' hcolon
        simp only [hcolon]
        split
        · rename_i hv
          rw [takeValue, hv]
          rfl
        · rename_i v rest hv
          simp only [takeValue, hv, Option.map_some, Option.bind_some]
          split
          · rename_i he
            simp only [he]
            rfl
          · rename_i he
            simp only [he, takeMembers, Option.map_map]
            rfl
          · rename_i hend hmore
            split
            · rename_i he
              exact absurd he (hend _)
            · rename_i he
              exact absurd he (hmore _)
            · rfl
      · rename_i hne
        split
        · rename_i hcolon
          exact absurd hcolon (hne _)
        · rfl
  · rename_i hne
    split
    · rename_i h
      exact absurd h (hne _)
    · rfl

/-! ## Numbers and words -/

theorem IsDigits.exists_cons {cs : List Char} (h : IsDigits cs) :
    ∃ d ds, cs = d :: ds ∧ d.isDigit = true := by
  obtain ⟨d, ds, rfl⟩ := List.exists_cons_of_ne_nil h.nonempty
  exact ⟨d, ds, rfl, h.digits d List.mem_cons_self⟩

/-- Digits are cut off in front of a text that does not start with one. -/
theorem IsDigits.cut {ds rest : List Char} (h : IsDigits ds)
    (hrest : rest.head?.any Char.isDigit = false) :
    (ds ++ rest).takeWhile Char.isDigit = ds ∧ (ds ++ rest).dropWhile Char.isDigit = rest := by
  rw [List.takeWhile_append_of_pos h.digits, List.dropWhile_append_of_pos h.digits]
  cases rest with
  | nil => exact ⟨List.append_nil _, rfl⟩
  | cons d rest =>
    have hd : d.isDigit = false := hrest
    simp [hd]

theorem IsDigits.head_ne {cs : List Char} (h : IsDigits cs) {c : Char} (hc : c.isDigit = false) :
    cs.head? ≠ some c := by
  obtain ⟨d, ds, rfl, hd⟩ := h.exists_cons
  intro he
  cases he
  exact Bool.false_ne_true (hc.symm.trans hd)

theorem IsDigits.all {cs : List Char} (h : IsDigits cs) :
    (!cs.isEmpty && cs.all Char.isDigit) = true := by
  obtain ⟨d, ds, rfl, -⟩ := h.exists_cons
  simpa using h.digits

theorem isDigit_exponentMark {e : Char} (h : e = 'e' ∨ e = 'E') :
    e.isDigit = false ∧ e ≠ '.' ∧ (e == 'e' || e == 'E') = true := by
  rcases h with rfl | rfl <;> decide

/-- The part of a number behind its fraction, as the reader tests it. -/
theorem IsExponent.accepted : ∀ {cs : List Char}, IsExponent cs →
    cs.head?.any Char.isDigit = false ∧ cs.head? ≠ some '.' ∧
      (match cs with
      | [] => true
      | c :: cs =>
        (c == 'e' || c == 'E') &&
          !(if cs.head? = some '+' ∨ cs.head? = some '-' then cs.drop 1 else cs).isEmpty &&
          (if cs.head? = some '+' ∨ cs.head? = some '-' then cs.drop 1 else cs).all
            Char.isDigit) = true := by
  intro cs h
  cases h with
  | absent => exact ⟨rfl, nofun, rfl⟩
  | @plain e ds he h =>
    obtain ⟨hd, hdot, hmark⟩ := isDigit_exponentMark he
    have hsign : ¬(ds.head? = some '+' ∨ ds.head? = some '-') := by
      rintro (hs | hs)
      exacts [h.head_ne rfl hs, h.head_ne rfl hs]
    refine ⟨hd, fun he => hdot (Option.some.inj he), ?_⟩
    simp only [if_neg hsign, hmark, Bool.true_and, h.all]
  | @signed e s ds he hs h =>
    obtain ⟨hd, hdot, hmark⟩ := isDigit_exponentMark he
    have hsign : (s :: ds).head? = some '+' ∨ (s :: ds).head? = some '-' :=
      hs.imp (congrArg some) (congrArg some)
    refine ⟨hd, fun he => hdot (Option.some.inj he), ?_⟩
    simp only [if_pos hsign, List.drop_succ_cons, List.drop_zero, hmark, Bool.true_and, h.all]

/-- A sign may stand in front of a number that has none. -/
theorem isNumberLiteral_negative {cs : List Char} (h : cs.head? ≠ some '-') :
    isNumberLiteral ('-' :: cs) = isNumberLiteral cs := by
  simp [isNumberLiteral, h]

theorem isNumberLiteral_positive {whole fraction exponent : List Char} (hw : IsWhole whole)
    (hf : IsFraction fraction) (he : IsExponent exponent) :
    isNumberLiteral (whole ++ fraction ++ exponent) = true := by
  obtain ⟨hhead, hdot, hexp⟩ := he.accepted
  have hsign : (whole ++ (fraction ++ exponent)).head? ≠ some '-' := by
    rw [List.head?_append_of_ne_nil _ hw.nonempty]
    exact hw.head_ne rfl
  have hleading : (!whole.isEmpty && (whole.head? ≠ some '0' || whole.length = 1)) = true := by
    obtain ⟨d, ds, rfl, -⟩ := hw.exists_cons
    by_cases h : d = '0'
    · simp [hw.leading (congrArg some h)]
    · simp [h]
  have hrest : (fraction ++ exponent).head?.any Char.isDigit = false := by
    cases hf with
    | absent => exact hhead
    | present h => rfl
  obtain ⟨htake, hdrop⟩ := hw.cut hrest
  rw [List.append_assoc]
  simp only [isNumberLiteral, if_neg hsign, htake, hdrop]
  rw [hleading, Bool.true_and, Bool.and_eq_true]
  cases hf with
  | absent =>
    simp only [List.nil_append, if_neg hdot]
    refine ⟨?_, hexp⟩
    split
    · exact absurd rfl hdot
    · rfl
  | present h =>
    obtain ⟨d, ds, hds, hd⟩ := h.exists_cons
    simp only [List.cons_append, List.head?_cons, if_true, List.drop_succ_cons, List.drop_zero,
      (h.cut hhead).2]
    refine ⟨?_, hexp⟩
    rw [hds]
    exact hd

theorem isNumberLiteral_of_isNumber {cs : List Char} (h : IsNumber cs) :
    isNumberLiteral cs = true := by
  cases h with
  | positive hw hf he => exact isNumberLiteral_positive hw hf he
  | negative hw hf he =>
    rw [isNumberLiteral_negative, isNumberLiteral_positive hw hf he]
    rw [List.append_assoc, List.head?_append_of_ne_nil _ hw.nonempty]
    exact hw.head_ne rfl

theorem isBare_of_isDigit {c : Char} (h : c.isDigit = true) : isBare c = true := by
  simp [isBare, Char.isAlphanum, h]

theorem IsDigits.isBare {cs : List Char} (h : IsDigits cs) : ∀ c ∈ cs, isBare c = true :=
  fun c hc => isBare_of_isDigit (h.digits c hc)

/-- What a number is made of. -/
theorem IsNumber.isBare {cs : List Char} (h : IsNumber cs) : ∀ c ∈ cs, isBare c = true := by
  have hfraction : ∀ {cs}, IsFraction cs → ∀ c ∈ cs, Json.isBare c = true := by
    intro cs h
    cases h with
    | absent => exact nofun
    | present h => exact List.forall_mem_cons.2 ⟨rfl, h.isBare⟩
  have hexponent : ∀ {cs}, IsExponent cs → ∀ c ∈ cs, Json.isBare c = true := by
    intro cs h
    cases h with
    | absent => exact nofun
    | plain he h =>
      refine List.forall_mem_cons.2 ⟨?_, h.isBare⟩
      rcases he with rfl | rfl <;> rfl
    | signed he hs h =>
      refine List.forall_mem_cons.2 ⟨?_, List.forall_mem_cons.2 ⟨?_, h.isBare⟩⟩
      · rcases he with rfl | rfl <;> rfl
      · rcases hs with rfl | rfl <;> rfl
  cases h with
  | positive hw hf he =>
    exact List.forall_mem_append.2
      ⟨List.forall_mem_append.2 ⟨hw.isBare, hfraction hf⟩, hexponent he⟩
  | negative hw hf he =>
    exact List.forall_mem_cons.2 ⟨rfl, List.forall_mem_append.2
      ⟨List.forall_mem_append.2 ⟨hw.isBare, hfraction hf⟩, hexponent he⟩⟩

/-- A number starts with a digit or the sign. -/
theorem IsNumber.exists_cons {cs : List Char} (h : IsNumber cs) :
    ∃ c rest, cs = c :: rest ∧ (c.isDigit = true ∨ c = '-') := by
  cases h with
  | positive hw hf he =>
    obtain ⟨d, ds, rfl, hd⟩ := hw.exists_cons
    exact ⟨d, _, by rw [List.append_assoc, List.cons_append], .inl hd⟩
  | negative hw hf he => exact ⟨'-', _, rfl, .inr rfl⟩

theorem IsNumber.ne_nil {cs : List Char} (h : IsNumber cs) : cs ≠ [] := by
  obtain ⟨c, rest, rfl, -⟩ := h.exists_cons
  exact List.cons_ne_nil c rest

theorem ofBare?_of_isNumber {cs : List Char} (h : IsNumber cs) :
    ofBare? cs = some (.number cs) := by
  obtain ⟨c, rest, hcs, hc⟩ := h.exists_cons
  have hword : ∀ word : List Char, word.head?.any (fun l => l.isDigit || l == '-') = false →
      cs ≠ word := by
    rintro word hword rfl
    rw [hcs, List.head?_cons, Option.any_some] at hword
    rcases hc with hc | rfl
    · rw [hc, Bool.true_or] at hword
      exact nomatch hword
    · exact nomatch hword
  rw [ofBare?, if_neg (hword _ rfl), if_neg (hword _ rfl), if_neg (hword _ rfl),
    if_pos (isNumberLiteral_of_isNumber h)]

/-! ## Every text is read -/

/-- A text that does not go on with a number or a word. -/
def Stops (rest : List Char) : Prop := ∀ c ∈ rest.head?, isBare c = false

theorem stops_cons {c : Char} (hc : isBare c = false) (rest : List Char) : Stops (c :: rest) := by
  intro d hd
  cases hd
  exact hc

theorem isBare_of_isSpace {c : Char} (h : isSpace c = true) : isBare c = false := by
  simp only [isSpace, Bool.or_eq_true, beq_iff_eq] at h
  rcases h with ((rfl | rfl) | rfl) | rfl <;> rfl

theorem isSpace_of_isBare {c : Char} (h : isBare c = true) : isSpace c = false := by
  by_contra hs
  rw [isBare_of_isSpace (Bool.not_eq_false _ ▸ hs)] at h
  exact nomatch h

theorem AllSpace.stops {b rest : List Char} (hb : AllSpace b) (hrest : Stops rest) :
    Stops (b ++ rest) := by
  cases b with
  | nil => exact hrest
  | cons c b => exact stops_cons (isBare_of_isSpace (hb c List.mem_cons_self)) _

theorem skipSpace_append {b : List Char} (hb : AllSpace b) {c : Char} (hc : isSpace c = false)
    (cs : List Char) : skipSpace (b ++ c :: cs) = c :: cs := by
  rw [skipSpace, List.dropWhile_append_of_pos hb]
  exact List.dropWhile_cons_of_neg (by rw [hc]; exact Bool.false_ne_true)

/-- A number or a word is taken up to where it stops. -/
theorem takeValue_bare {b cs rest : List Char} {v : Json} (hb : AllSpace b) (hne : cs ≠ [])
    (hcs : ∀ c ∈ cs, isBare c = true) (hv : ofBare? cs = some v) (hrest : Stops rest) :
    takeValue (b ++ (cs ++ rest)) = some (v, rest) := by
  obtain ⟨c, cs, rfl⟩ := List.exists_cons_of_ne_nil hne
  obtain ⟨hc, hcs⟩ := List.forall_mem_cons.1 hcs
  have hcut : (cs ++ rest).takeWhile isBare = cs ∧ (cs ++ rest).dropWhile isBare = rest := by
    rw [List.takeWhile_append_of_pos hcs, List.dropWhile_append_of_pos hcs]
    cases rest with
    | nil => exact ⟨List.append_nil _, rfl⟩
    | cons d rest =>
      have hd : isBare d = false := hrest d rfl
      simp [hd]
  obtain ⟨hquote, hbracket, hbrace⟩ : c ≠ '"' ∧ c ≠ '[' ∧ c ≠ '\x7b' := by
    refine ⟨?_, ?_, ?_⟩ <;> rintro rfl <;> exact nomatch hc
  rw [List.cons_append, takeValue_eq, skipSpace_append hb (isSpace_of_isBare hc)]
  simp only [hquote, hbracket, hbrace, hc, if_false, if_true, hcut, hv, Option.map_some]

theorem takeValue_items {b cs rest : List Char} {vs : List Json} (hb : AllSpace b)
    (hne : ∀ r, skipSpace cs ≠ ']' :: r) (h : takeItems cs = some (vs, rest)) :
    takeValue (b ++ '[' :: cs) = some (.array vs, rest) := by
  rw [takeValue_eq, skipSpace_append hb rfl]
  show (match skipSpace cs with
    | ']' :: r => some (Json.array [], r)
    | _ => (takeItems cs).map fun (vs, r) => (Json.array vs, r)) = some (Json.array vs, rest)
  split
  · rename_i he
    exact absurd he (hne _)
  · rw [h]
    rfl

theorem takeValue_members {b cs rest : List Char} {ms : List (String × Json)} (hb : AllSpace b)
    (hne : ∀ r, skipSpace cs ≠ '\x7d' :: r) (h : takeMembers cs = some (ms, rest)) :
    takeValue (b ++ '\x7b' :: cs) = some (.object ms, rest) := by
  rw [takeValue_eq, skipSpace_append hb rfl]
  show (match skipSpace cs with
    | '\x7d' :: r => some (Json.object [], r)
    | _ => (takeMembers cs).map fun (ms, r) => (Json.object ms, r)) = some (Json.object ms, rest)
  split
  · rename_i he
    exact absurd he (hne _)
  · rw [h]
    rfl

/-! ## Every text is read -/

/-- A value starts with a character of its own, by which it is told from the end of a row. -/
theorem Spells.start {v : Json} {cs : List Char} (h : Spells v cs) :
    ∃ c rest, cs = c :: rest ∧ isSpace c = false ∧ c ≠ ']' := by
  cases h with
  | nullWord => exact ⟨'n', _, rfl, rfl, by decide⟩
  | trueWord => exact ⟨'t', _, rfl, rfl, by decide⟩
  | falseWord => exact ⟨'f', _, rfl, rfl, by decide⟩
  | number h =>
    obtain ⟨c, rest, hcs, hc⟩ := h.exists_cons
    refine ⟨c, rest, hcs, ?_⟩
    have hbare := h.isBare c (hcs ▸ List.mem_cons_self)
    refine ⟨isSpace_of_isBare hbare, ?_⟩
    rintro rfl
    exact nomatch hbare
  | string h =>
    obtain ⟨inside, -, rfl⟩ := h
    exact ⟨'"', _, rfl, rfl, by decide⟩
  | emptyArray | array => exact ⟨'[', _, rfl, rfl, by decide⟩
  | emptyObject | object => exact ⟨'\x7b', _, rfl, rfl, by decide⟩

/-- A row of items does not start like the end of one. -/
theorem SpellsItems.skipSpace_ne {vs : List Json} {cs : List Char} (h : SpellsItems vs cs)
    (rest r : List Char) : skipSpace (cs ++ rest) ≠ ']' :: r := by
  obtain ⟨b, v, xs, ys, rfl, hb, hv⟩ : ∃ b v xs ys, cs = b ++ (xs ++ ys) ∧ AllSpace b ∧
      Spells v xs := by
    cases h with
    | one hb hv hb' => exact ⟨_, _, _, _, List.append_assoc .., hb, hv⟩
    | cons hb hv hb' hvs =>
      exact ⟨_, _, _, _, by rw [List.append_assoc, List.append_assoc], hb, hv⟩
  obtain ⟨c, xs, rfl, hc, hend⟩ := hv.start
  simp only [List.append_assoc, List.cons_append]
  rw [skipSpace_append hb hc]
  exact fun he => hend (List.cons.inj he).1

theorem SpellsMembers.skipSpace_ne {ms : List (String × Json)} {cs : List Char}
    (h : SpellsMembers ms cs) (rest r : List Char) : skipSpace (cs ++ rest) ≠ '\x7d' :: r := by
  obtain ⟨b, xs, rfl, hb⟩ : ∃ b xs, cs = b ++ '"' :: xs ∧ AllSpace b := by
    cases h with
    | one hb hk hb' hb'' hv hb₃ =>
      obtain ⟨inside, -, rfl⟩ := hk
      exact ⟨_, _, by simp only [List.append_assoc, List.cons_append]; rfl, hb⟩
    | cons hb hk hb' hb'' hv hb₃ hms =>
      obtain ⟨inside, -, rfl⟩ := hk
      exact ⟨_, _, by simp only [List.append_assoc, List.cons_append]; rfl, hb⟩
  rw [List.append_assoc, List.cons_append, skipSpace_append hb rfl]
  exact fun he => absurd (List.cons.inj he).1 (by decide)

mutual

/-- Each text of a value is taken as that value, up to where the text ends. -/
theorem takeValue_of_spells {v : Json} {cs b rest : List Char} (h : Spells v cs) (hb : AllSpace b)
    (hrest : Stops rest) : takeValue (b ++ (cs ++ rest)) = some (v, rest) := by
  match h with
  | .nullWord => exact takeValue_bare hb (by decide) (List.all_eq_true.1 rfl) rfl hrest
  | .trueWord => exact takeValue_bare hb (by decide) (List.all_eq_true.1 rfl) rfl hrest
  | .falseWord => exact takeValue_bare hb (by decide) (List.all_eq_true.1 rfl) rfl hrest
  | .number h => exact takeValue_bare hb h.ne_nil h.isBare (ofBare?_of_isNumber h) hrest
  | .string ⟨inside, hs, hcs⟩ =>
    simp only [hcs, List.append_assoc, List.cons_append, List.nil_append]
    rw [takeValue_eq, skipSpace_append hb rfl]
    simp only [if_true, readStringTail_of_spells hs, Option.map_some, String.ofList_toList]
  | .emptyArray hb' =>
    simp only [List.append_assoc, List.cons_append, List.nil_append]
    rw [takeValue_eq, skipSpace_append hb rfl]
    simp only [skipSpace_append hb' (show isSpace ']' = false from rfl)]
    rfl
  | .array h =>
    simp only [List.append_assoc, List.cons_append, List.nil_append]
    exact takeValue_items hb (h.skipSpace_ne _) (takeItems_of_spells h rest)
  | .emptyObject hb' =>
    simp only [List.append_assoc, List.cons_append, List.nil_append]
    rw [takeValue_eq, skipSpace_append hb rfl]
    simp only [skipSpace_append hb' (show isSpace '\x7d' = false from rfl)]
    rfl
  | .object h =>
    simp only [List.append_assoc, List.cons_append, List.nil_append]
    exact takeValue_members hb (h.skipSpace_ne _) (takeMembers_of_spells h rest)

theorem takeItems_of_spells {vs : List Json} {cs : List Char} (h : SpellsItems vs cs)
    (rest : List Char) : takeItems (cs ++ ']' :: rest) = some (vs, rest) := by
  match h with
  | .one hb hv hb' =>
    have hstops := hb'.stops (stops_cons (c := ']') rfl rest)
    simp only [List.append_assoc]
    rw [takeItems_eq]
    simp only [takeValue_of_spells hv hb hstops, Option.bind_some]
    rw [skipSpace_append hb' rfl]
    rfl
  | .cons hb hv hb' hvs =>
    have hstops := fun cs => hb'.stops (stops_cons (c := ',') rfl cs)
    simp only [List.append_assoc, List.cons_append]
    rw [takeItems_eq]
    simp only [takeValue_of_spells hv hb (hstops _), Option.bind_some]
    rw [skipSpace_append hb' rfl]
    simp only [takeItems_of_spells hvs rest, Option.map_some]

theorem takeMembers_of_spells {ms : List (String × Json)} {cs : List Char}
    (h : SpellsMembers ms cs) (rest : List Char) :
    takeMembers (cs ++ '\x7d' :: rest) = some (ms, rest) := by
  match h with
  | .one hb ⟨inside, hk, hks⟩ hb' hb'' hv hb₃ =>
    have hstops := hb₃.stops (stops_cons (c := '\x7d') rfl rest)
    simp only [hks, List.append_assoc, List.cons_append, List.nil_append]
    rw [takeMembers_eq, skipSpace_append hb rfl]
    simp only [readStringTail_of_spells hk, Option.bind_some]
    rw [skipSpace_append hb' rfl]
    simp only [takeValue_of_spells hv hb'' hstops, Option.bind_some]
    rw [skipSpace_append hb₃ rfl]
    simp only [String.ofList_toList]
  | .cons hb ⟨inside, hk, hks⟩ hb' hb'' hv hb₃ hms =>
    have hstops := fun cs => hb₃.stops (stops_cons (c := ',') rfl cs)
    simp only [hks, List.append_assoc, List.cons_append, List.nil_append]
    rw [takeMembers_eq, skipSpace_append hb rfl]
    simp only [readStringTail_of_spells hk, Option.bind_some]
    rw [skipSpace_append hb' rfl]
    simp only [takeValue_of_spells hv hb'' (hstops _), Option.bind_some]
    rw [skipSpace_append hb₃ rfl]
    simp only [takeMembers_of_spells hms rest, String.ofList_toList, Option.map_some]

end

/-- Every text of a value is read as that value. -/
theorem read?_of_isText {s : String} {v : Json} (h : IsText s v) : read? s = some v := by
  obtain ⟨b, cs, b', hb, hv, hb', hs⟩ := h
  have hstops : Stops b' := by
    have h : Stops (b' ++ []) := hb'.stops fun _ hc => nomatch hc
    rwa [List.append_nil] at h
  have htake := takeValue_of_spells hv hb hstops
  rw [← hs, takeValue] at htake
  obtain ⟨⟨v', rest⟩, hread, he⟩ := Option.map_eq_some_iff.1 htake
  cases he
  have hend : skipSpace rest.1 = [] := List.dropWhile_eq_nil_iff.2 hb'
  simp only [read?, hread, Option.bind_eq_bind, Option.bind_some, if_pos hend]

theorem read?_pretty {v : Json} (h : Proper v) : read? v.pretty = some v :=
  read?_of_isText (isText_pretty h)

end PageMend.Json
