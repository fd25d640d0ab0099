import PageMend.Proofs.Yaml.Pieces

/-!
# Values become tokens

Behind the colon of a key stands a scalar in one of its styles, an empty list, or the end of the
line. Each is read up to the next word, if this word is not indented more than the key
(`IsValue`). So every string is read back as it was written (`isValue_scalar`).
-/

namespace PageMend.Yaml

open Written

variable {s s' : Lexing} {m : Mark} {cs rest word : List Char} {indents : List Nat}
  {tokens : List Token} {c : Char} {column : Nat}

/-! ## What a style can hold -/

theorem endLine_of_no_break (h : ∀ c ∈ cs.getLast?, isBreak c = false) :
    endLine cs = cs ++ ['\n'] := by
  rw [endLine, endsWith]
  cases hlast : cs.getLast? with
  | none => rfl
  | some c => simp [h c hlast]

theorem endsWith_endLine (cs : List Char) : endsWith isBreak (endLine cs) = true := by
  rw [endLine]
  split
  · assumption
  · exact endsWith_append (List.cons_ne_nil _ _)

/-- What a text is like for which a style is taken. -/
inductive Holds (cs : List Char) : Style → Prop
  | plain (h : canBePlain cs = true) (hne : cs ≠ []) : Holds cs .plain
  | singleQuoted (h : canBeSingleQuoted cs = true) (hfeed : '\n' ∉ cs) : Holds cs .singleQuoted
  | doubleQuoted : Holds cs .doubleQuoted
  | literal (h : canBeLiteral cs = true) (hne : cs ≠ []) : Holds cs .literal

theorem holds_styleOf (text : String) : Holds text.toList (styleOf text) := by
  have hempty : text.toList = [] → isAmbiguous text = true := by
    intro h
    rw [show text = "" from String.toList_eq_nil_iff.1 h]
    decide
  rw [styleOf]
  generalize text.toList = cs at *
  simp only [List.contains_iff_mem, Bool.and_eq_true, Bool.not_eq_true']
  split
  · rename_i hfeed
    split
    · rename_i hliteral
      exact .literal hliteral (List.ne_nil_of_mem hfeed)
    · exact .doubleQuoted
  rename_i hfeed
  split
  · rename_i hplain
    refine .plain hplain.1 fun h => ?_
    rw [hempty h] at hplain
    exact nomatch hplain.2
  split
  · rename_i hsingle
    exact .singleQuoted hsingle hfeed
  · exact .doubleQuoted

theorem printable_endLine (h : ∀ c ∈ cs, isPrintable c = true) :
    ∀ c ∈ endLine cs, isPrintable c = true := by
  rw [endLine]
  split
  · exact h
  · exact List.forall_mem_append.2 ⟨h, List.forall_mem_singleton.2 rfl⟩

/-- A string is written with printable characters only. -/
theorem printable_scalar (indentation : Nat) (text : String) :
    ∀ c ∈ scalar indentation text, isPrintable c = true := by
  have hholds := holds_styleOf text
  rw [scalar]
  generalize styleOf text = style at *
  generalize text.toList = cs at *
  cases hholds with
  | plain h => exact (PlainFrom.of_canBePlain h).printable
  | singleQuoted h =>
    simp only [canBeSingleQuoted, Bool.and_eq_true, List.all_eq_true] at h
    exact List.forall_mem_append.2 ⟨List.forall_mem_cons.2
      ⟨rfl, printable_singleQuotedFrom h.1.1⟩, List.forall_mem_singleton.2 rfl⟩
  | doubleQuoted =>
    refine List.forall_mem_append.2 ⟨List.forall_mem_cons.2 ⟨rfl, ?_⟩,
      List.forall_mem_singleton.2 rfl⟩
    intro c hc
    obtain ⟨d, -, hd⟩ := List.mem_flatMap.1 hc
    exact ((writtenAs_doubleQuotedCharacter d).spec c hd).2
  | literal h =>
    simp only [canBeLiteral, Bool.and_eq_true, List.all_eq_true] at h
    exact printable_literal h.1.1

namespace Lexing

/-! ## What a value is -/

/-- Characters behind a colon from which a value is read, up to the next word. This is not indented
more than the key, unless the value is written below. -/
def IsValue (column : Nat) (cs : List Char) (signs : List Sign) : Prop :=
  ∀ (m : Mark) (tokens : List Token) (outer : List Nat) (n : Nat) (word : List Char),
    column ≤ m.column → n ≤ column ∨ cs = ['\n'] → IsWord word →
      ∃ s', (facing m (cs ++ (spaces n ++ word)) tokens (column :: outer) false).Leads signs s' ∧
        s'.Arrives (m.over (cs ++ spaces n)) word (column :: outer)

/-- A token behind a space. -/
theorem leads_of_take {taken : Lexing} {sign : Sign} {outer : List Nat} (hc : IsStart c)
    (hcolumn : column ≤ m.column)
    (htake : (facing (m.behind ' ') (c :: cs) tokens (column :: outer) false).takeToken
      (m.behind ' ') (place ((m.behind ' ').behind c) cs) c = .ok taken)
    (hbarrier : taken.barrier = none) (hexpire : taken.expire = .ok taken)
    (hsign : sign ≠ .streamEnd)
    (htokens : taken.tokens = tokens ++ [⟨sign, m.behind ' '⟩])
    (hlength : taken.rest.length ≤ cs.length) :
    (facing m (' ' :: c :: cs) tokens (column :: outer) false).Leads [sign] taken := by
  have hgap : skipGap false false false (place m (' ' :: c :: cs)) =
      (place (m.behind ' ') (c :: cs), false) := by
    have hword : IsWord (c :: cs) := by
      intro d hd
      cases hd
      exact hc
    rw [place_cons, skipGap]
    simpa [isBreak] using skipGap_word hword false
  have hcolumn' : column ≤ (m.behind ' ').column := by
    rw [Mark.column_behind rfl]
    omega
  have happroach : (facing m (' ' :: c :: cs) tokens (column :: outer) false).approach =
      .ok (facing (m.behind ' ') (c :: cs) tokens (column :: outer) false) :=
    approach_within hgap rfl (fun c hc => absurd hc (Option.not_mem_none c)) (by
      rintro _ ⟨⟩
      exact hcolumn')
  refine ⟨run_eq_of_step (step_eq happroach rfl rfl htake hbarrier hexpire) ?_ ?_, ?_⟩
  · simp only [facing, length_place, List.length_cons]
    omega
  · simp [htokens, hsign]
  · simp [htokens, facing]

/-! ## The styles -/

/-- A text that can stand plain. -/
theorem isValue_plain (h : canBePlain cs = true) (hne : cs ≠ []) :
    IsValue column (' ' :: (cs ++ ['\n'])) [.scalar .plain (String.ofList cs)] := by
  intro m tokens outer n word hcolumn hn hword
  have hn := hn.resolve_right (by simp)
  obtain ⟨c, cs, rfl⟩ := List.exists_cons_of_ne_nil hne
  obtain ⟨hstart, hindicator⟩ := isStart_of_canBePlain h
  have hread : readPlain ⟨false, column + 1⟩ (m.behind ' ') .none
      (place (m.behind ' ') (c :: cs ++ '\n' :: (spaces n ++ word))) = .ok _ :=
    readPlain_value rfl h (by rw [Mark.column_behind rfl]; omega) hword
      (Nat.lt_succ_of_le (hn.resolve_right (by simp)))
  have hnote : (facing (m.behind ' ') (c :: cs ++ '\n' :: (spaces n ++ word)) tokens
      (column :: outer) false).noteCandidate = .ok _ := rfl
  have htake := takePlain_eq hnote hread
  have hgap : Yaml.atGap (place ((m.behind ' ').behind c) (cs ++ '\n' :: (spaces n ++ word))) =
      true → Written.atGap cs = true := by
    cases cs with
    | nil => exact fun _ => rfl
    | cons d ds => exact id
  have hrest : ' ' :: (c :: cs ++ ['\n']) ++ (spaces n ++ word) =
      ' ' :: c :: (cs ++ '\n' :: (spaces n ++ word)) := by simp
  have hapart : Apart (m.behind ' ') c := .inl (by rw [Mark.column_behind rfl]; omega)
  rw [hrest]
  have hlead := leads_of_take hstart hcolumn
    ((takeToken_plain hindicator hstart.no_blank hapart rfl rfl hgap).trans htake) rfl rfl
    (by simp) rfl (by simp [length_place]; omega)
  refine ⟨_, hlead, ?_, by simp [facing, add], rfl, rfl, rfl, rfl⟩
  simpa using skipGap_word hword true

theorem takeQuoted_eq {mark : Mark} {after : List Placed} {style : Style} {cut : Cut}
    (hnote : s.noteCandidate = .ok s')
    (hread : readQuoted (style = .doubleQuoted) mark s'.finish .none after = .ok cut) :
    s.takeQuoted mark after style =
      .ok { s'.add (.scalar style (String.ofList cut.1)) mark with
        rest := cut.2, keyAllowed := false } := by
  rw [takeQuoted, hnote]
  simp only [bind, Except.bind]
  rw [hread]
  rfl

/-- A text in quotation marks, by what is read between them. -/
theorem isValue_quoted {style : Style} {quote : Char} {inner : List Char}
    (hquote : (quote, style) ∈ [('\'', Style.singleQuoted), ('"', Style.doubleQuoted)])
    (hread : ∀ (m start finish : Mark) (rest : List Char), m.column ≠ 0 → rest.head? ≠ some quote →
      readQuoted (style = .doubleQuoted) start finish .none (place m (inner ++ quote :: rest)) =
        .ok (cs, place (m.over (inner ++ [quote])) rest)) :
    IsValue column (' ' :: (quote :: inner ++ [quote, '\n']))
      [.scalar style (String.ofList cs)] := by
  intro m tokens outer n word hcolumn hn hword
  have hstart : IsStart quote := by
    simp only [List.mem_cons, Prod.mk.injEq, List.not_mem_nil, or_false] at hquote
    rcases hquote with ⟨rfl, -⟩ | ⟨rfl, -⟩ <;> exact ⟨rfl, rfl, by decide, by decide⟩
  have hnot : ('\n' :: (spaces n ++ word)).head? ≠ some quote := by
    rintro ⟨⟩
    exact nomatch hstart.no_break
  have hbehind : ((m.behind ' ').behind quote).column ≠ 0 := by
    rw [Mark.column_behind hstart.no_break]
    omega
  have hnote : (facing (m.behind ' ') (quote :: (inner ++ quote :: '\n' :: (spaces n ++ word)))
      tokens (column :: outer) false).noteCandidate = .ok _ := rfl
  have htake := takeQuoted_eq hnote (hread _ (m.behind ' ') _ _ hbehind hnot)
  have hstyle : ∀ (s : Lexing) (after : List Placed) (mark : Mark),
      s.rest = ⟨quote, mark⟩ :: after → s.outer = [] →
        s.takeToken mark after quote = s.takeQuoted mark after style := by
    intro s after mark hs houter
    simp only [List.mem_cons, Prod.mk.injEq, List.not_mem_nil, or_false] at hquote
    rcases hquote with ⟨rfl, rfl⟩ | ⟨rfl, rfl⟩ <;>
      simp [takeToken, hs, atTriple_eq_false]
  have hlead := leads_of_take hstart hcolumn ((hstyle _ _ _ rfl rfl).trans htake) rfl rfl
    (by simp) rfl (by simp [length_place]; omega)
  have hrest : ' ' :: (quote :: inner ++ [quote, '\n']) ++ (spaces n ++ word) =
      ' ' :: quote :: (inner ++ quote :: '\n' :: (spaces n ++ word)) := by simp
  rw [hrest]
  refine ⟨_, hlead, ?_, by simp [facing, add], rfl, rfl, rfl, rfl⟩
  simpa [-place_append] using skipGap_line hword n false

/-- A text in single quotation marks. -/
theorem isValue_singleQuoted (h : canBeSingleQuoted cs = true) (hfeed : '\n' ∉ cs) :
    IsValue column (' ' :: (singleQuoted (column + Written.step) cs ++ ['\n']))
      [.scalar .singleQuoted (String.ofList cs)] := by
  have hpos : 0 < column + Written.step := Nat.lt_of_lt_of_le (by decide) (Nat.le_add_left _ _)
  have hvalue : IsValue column
      (' ' :: ('\'' :: singleQuotedFrom (column + Written.step) false cs ++ ['\'', '\n']))
      [.scalar .singleQuoted (String.ofList cs)] :=
    isValue_quoted (by simp) fun _ _ _ _ hm hrest => readQuoted_singleQuoted hpos h hfeed hm hrest
  simpa [singleQuoted] using hvalue

/-- A text in double quotation marks. -/
theorem isValue_doubleQuoted :
    IsValue column (' ' :: (doubleQuoted cs ++ ['\n']))
      [.scalar .doubleQuoted (String.ofList cs)] := by
  have hvalue : IsValue column (' ' :: ('"' :: cs.flatMap doubleQuotedCharacter ++ ['"', '\n']))
      [.scalar .doubleQuoted (String.ofList cs)] :=
    isValue_quoted (by simp) fun _ _ _ _ hm _ => readQuoted_doubleQuoted hm []
  simpa [doubleQuoted] using hvalue

theorem takeBlockScalar_eq {mark : Mark} {after : List Placed} {style : Style} {cut : Cut}
    (hdrop : s.dropCandidate = .ok s')
    (hread : readBlock (style = .folded) s'.margin mark s'.finish after = .ok cut) :
    s.takeBlockScalar mark after style =
      .ok { s'.add (.scalar style (String.ofList cut.1)) mark with
        rest := cut.2, keyAllowed := true } := by
  rw [takeBlockScalar, hdrop]
  simp only [bind, Except.bind]
  rw [hread]
  rfl

/-- A text in a literal block. -/
theorem isValue_literal (h : canBeLiteral cs = true) (hne : cs ≠ []) :
    IsValue column (' ' :: endLine (literal (column + Written.step) cs))
      [.scalar .literal (String.ofList cs)] := by
  intro m tokens outer n word hcolumn hn hword
  have hn := hn.resolve_right (by simp)
  obtain ⟨after, hafter⟩ :
      ∃ after, endLine (literal (column + Written.step) cs) = '|' :: after := by
    rw [endLine]
    split <;> simp [literal]
  have hread : readBlock (decide (Style.literal = .folded)) (column + 1) (m.behind ' ')
      ((m.behind ' ').over ('|' :: (after ++ (spaces n ++ word))))
      (place ((m.behind ' ').behind '|') (after ++ (spaces n ++ word))) = .ok _ :=
    readBlock_literal h hne hword hn hafter
  have hdrop : (facing (m.behind ' ') ('|' :: (after ++ (spaces n ++ word))) tokens
      (column :: outer) false).dropCandidate = .ok _ := rfl
  have htake := takeBlockScalar_eq hdrop hread
  have hstart : IsStart '|' := ⟨rfl, rfl, by decide, by decide⟩
  have htoken : ∀ (s : Lexing) (after : List Placed) (mark : Mark),
      s.rest = ⟨'|', mark⟩ :: after → s.outer = [] →
        s.takeToken mark after '|' = s.takeBlockScalar mark after .literal := by
    intro s after mark hs houter
    simp [takeToken, hs, atTriple_eq_false, inFlow, houter]
  have hlead := leads_of_take hstart hcolumn ((htoken _ _ _ rfl rfl).trans htake) rfl rfl
    (by simp) rfl (by simp [length_place]; omega)
  rw [hafter]
  refine ⟨_, hlead, ?_, by simp [facing, add], rfl, rfl, rfl, rfl⟩
  simpa using skipGap_word hword true

/-- Every string is read back behind a colon. -/
theorem isValue_scalar (text : String) :
    IsValue column (' ' :: endLine (scalar (column + Written.step) text))
      [.scalar (styleOf text) text] := by
  have hholds := holds_styleOf text
  have htext : text = String.ofList text.toList := String.ofList_toList.symm
  rw [scalar]
  generalize styleOf text = style at *
  generalize text.toList = cs at *
  subst htext
  cases hholds with
  | plain h hne =>
    have hline := (PlainFrom.of_canBePlain h).oneLine
    rw [endLine_of_no_break fun c hc => hline c (List.mem_of_getLast? hc)]
    exact isValue_plain h hne
  | singleQuoted h hfeed =>
    have hquote : ∀ c ∈ (singleQuoted (column + Written.step) cs).getLast?, isBreak c = false := by
      rw [singleQuoted, List.getLast?_concat]
      rintro _ ⟨⟩
      rfl
    rw [endLine_of_no_break hquote]
    exact isValue_singleQuoted h hfeed
  | doubleQuoted =>
    have hquote : ∀ c ∈ (doubleQuoted cs).getLast?, isBreak c = false := by
      rw [doubleQuoted, List.getLast?_concat]
      rintro _ ⟨⟩
      rfl
    rw [endLine_of_no_break hquote]
    exact isValue_doubleQuoted
  | literal h hne => exact isValue_literal h hne

/-! ## Other values -/

/-- The value of a key is written on the lines below. -/
theorem isValue_heading : IsValue column ['\n'] [] := by
  intro m tokens outer n word _ _ hword
  exact ⟨_, ⟨rfl, (List.append_nil _).symm⟩, arrives_line hword n false⟩

/-- An empty list in brackets. -/
theorem isValue_emptyList :
    IsValue column [' ', '[', ']', '\n'] [.flowSequence, .flowSequenceEnd] := by
  intro m tokens outer n word hcolumn hn hword
  have hstart : IsStart '[' := ⟨rfl, rfl, by decide, by decide⟩
  generalize htext : spaces n ++ word = text
  let opened : Lexing := { facing ((m.behind ' ').behind '[') (']' :: '\n' :: text)
    (tokens ++ [⟨.flowSequence, m.behind ' '⟩]) (column :: outer) true with outer := [none] }
  have htake : (facing (m.behind ' ') ('[' :: ']' :: '\n' :: text) tokens (column :: outer)
      false).takeToken (m.behind ' ')
        (place ((m.behind ' ').behind '[') (']' :: '\n' :: text)) '[' = .ok opened := rfl
  have hopen := leads_of_take hstart hcolumn htake rfl rfl (by simp) rfl (by simp [opened, facing])
  -- inside the brackets nothing is a block
  have happroach : opened.approach = .ok opened := rfl
  have hhere : opened.rest = ⟨']', (m.behind ' ').behind '['⟩ ::
      place (((m.behind ' ').behind '[').behind ']') ('\n' :: text) := rfl
  have hend : ∀ (after : List Placed) (mark : Mark), opened.rest = ⟨']', mark⟩ :: after →
      opened.takeToken mark after ']' = opened.takeFlowEnd mark after .flowSequenceEnd := by
    intro after mark hs
    simp [takeToken, hs, atTriple_eq_false]
  have hstep : opened.step = .ok (facing (((m.behind ' ').behind '[').behind ']') ('\n' :: text)
      (tokens ++ [⟨.flowSequence, m.behind ' '⟩] ++ [⟨.flowSequenceEnd, (m.behind ' ').behind '['⟩])
      (column :: outer) false) :=
    step_eq happroach rfl hhere (hend _ _ hhere) rfl rfl
  have hclose : opened.Leads [.flowSequenceEnd] _ :=
    ⟨run_eq_of_step hstep (by simp [opened, facing]) (by simp [facing]), by simp [opened, facing]⟩
  subst htext
  exact ⟨_, hopen.trans hclose, arrives_line hword n false⟩

end Lexing

end PageMend.Yaml
