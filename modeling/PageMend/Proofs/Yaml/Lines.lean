import PageMend.Proofs.Yaml.Values

/-!
# Lines become tokens

A text that is written line by line, each with a key and perhaps a dash in front of it, is read as
the tokens of its lines one after the other. What tokens a line has depends on the columns of the
blocks that are open in front of it (`Line.signs`, `signsOfLines`). `tokens_textOfLines` is the
result for whole texts.
-/

namespace PageMend.Yaml

open Written

/-- A line with a key, and with what is written behind the colon up to the next line. -/
structure Line where
  /-- The column of the dash, or of the key if there is none. -/
  column : Nat
  isItem : Bool
  key : List Char
  value : List Char
  /-- The signs of the value. -/
  valueSigns : List Sign

namespace Line

variable (l : Line)

def keyColumn : Nat := if l.isItem then l.column + 2 else l.column

/-- The line behind its indentation. -/
def word : List Char := (if l.isItem then ['-', ' '] else []) ++ (l.key ++ ':' :: l.value)

def chars : List Char := spaces l.column ++ l.word

/-- The blocks that are open behind the dash of the line. -/
def behindDash (indents : List Nat) : List Nat :=
  if l.isItem then Lexing.entered (Lexing.within indents l.column) l.column else indents

/-- The blocks that are open behind the line. -/
def behind (indents : List Nat) : List Nat :=
  Lexing.entered (Lexing.within (l.behindDash indents) l.keyColumn) l.keyColumn

/-- The signs of the line, and of what ends in front of it. -/
def signs (indents : List Nat) : List Sign :=
  (if l.isItem then Lexing.arrive .blockSequence indents l.column ++ [.dash] else []) ++
    (Lexing.arrive .blockMapping (l.behindDash indents) l.keyColumn ++
      [.key, .scalar .plain (String.ofList l.key), .colon] ++ l.valueSigns)

/-- The key of the line is a name, and its value is read as the signs tell. -/
structure Sound : Prop where
  key : IsName l.key
  value : Lexing.IsValue l.keyColumn l.value l.valueSigns
  printable : ∀ c ∈ l.value, isPrintable c = true
  gap : Written.atGap l.value = true
  ends : endsWith isBreak l.value = true

end Line

/-! ## Several lines -/

/-- The text of some lines. -/
def textOfLines (lines : List Line) : List Char := lines.flatMap Line.chars

/-- The column at which some lines begin. -/
def columnOf : List Line → Nat
  | [] => 0
  | l :: _ => l.column

/-- The text of some lines behind the indentation of the first one. -/
def wordOf : List Line → List Char
  | [] => []
  | l :: lines => l.word ++ textOfLines lines

theorem textOfLines_eq (lines : List Line) :
    textOfLines lines = spaces (columnOf lines) ++ wordOf lines := by
  cases lines with
  | nil => rfl
  | cons l lines => exact List.append_assoc ..

/-- The signs of some lines, if blocks are open at some columns, and of the end behind them. -/
def signsOfLines (indents : List Nat) : List Line → List Sign
  | [] => indents.map (fun _ => .blockEnd) ++ [.streamEnd]
  | l :: lines => l.signs indents ++ signsOfLines (l.behind indents) lines

/-- A block that lies right of the lines ends in front of them. -/
theorem signsOfLines_outer {lines : List Line} {column : Nat} (h : columnOf lines < column)
    (indents : List Nat) :
    signsOfLines (column :: indents) lines = .blockEnd :: signsOfLines indents lines := by
  cases lines with
  | nil => rfl
  | cons l lines =>
    have hcolumn : l.column < column := h
    have hwithin : Lexing.within (column :: indents) l.column = Lexing.within indents l.column := by
      simp [Lexing.within, hcolumn]
    have harrive : ∀ sign, Lexing.arrive sign (column :: indents) l.column =
        .blockEnd :: Lexing.arrive sign indents l.column := by
      intro sign
      simp [Lexing.arrive, hwithin, Lexing.ends, hcolumn]
    cases hitem : l.isItem <;>
      simp [signsOfLines, Line.signs, Line.behind, Line.behindDash, Line.keyColumn, hitem, hwithin,
        harrive]

/-- Lines of which each is sound, and is not followed by one that is indented more unless its value
is written there. -/
def AreSound : List Line → Prop
  | [] => True
  | l :: lines => l.Sound ∧ (columnOf lines ≤ l.keyColumn ∨ l.value = ['\n']) ∧ AreSound lines

variable {l : Line} {lines : List Line}

theorem IsName.isWord {key rest : List Char} (h : IsName key) : IsWord (key ++ rest) := by
  obtain ⟨c, cs, rfl⟩ := List.exists_cons_of_ne_nil h.nonempty
  rintro _ ⟨⟩
  exact (isStart_of_canBePlain h.plain).1

theorem Line.Sound.isWord (h : l.Sound) (rest : List Char) : IsWord (l.word ++ rest) := by
  rw [Line.word, List.append_assoc, List.append_assoc]
  cases l.isItem with
  | true =>
    rintro _ ⟨⟩
    exact ⟨rfl, rfl, by decide, by decide⟩
  | false => exact h.key.isWord

theorem AreSound.isWord (h : AreSound lines) : IsWord (wordOf lines) := by
  cases lines with
  | nil => exact fun _ h => nomatch h
  | cons l lines => exact h.1.isWord _

theorem Line.Sound.printable_chars (h : l.Sound) : ∀ c ∈ l.chars, isPrintable c = true := by
  have hkey := (PlainFrom.of_canBePlain h.key.plain).printable
  refine List.forall_mem_append.2 ⟨printable_spaces _, List.forall_mem_append.2
    ⟨?_, List.forall_mem_append.2 ⟨hkey, List.forall_mem_cons.2 ⟨rfl, h.printable⟩⟩⟩⟩
  cases l.isItem <;> exact List.all_eq_true.1 rfl

/-- Behind a line a new one begins. -/
theorem Line.Sound.column_over (h : l.Sound) (m : Mark) (n : Nat) :
    (m.over (l.word ++ spaces n)).column = n := by
  have hzero : (m.over l.word).column = 0 := by
    rw [Line.word, Mark.over_append, Mark.over_append, Mark.over_cons]
    exact Mark.column_over_endsWith h.ends
  rw [Mark.over_append, Mark.column_over_spaces, hzero, Nat.zero_add]

namespace Lexing

variable {s : Lexing} {m : Mark} {indents : List Nat} {n : Nat} {word : List Char}

theorem exists_entered (indents : List Nat) (column : Nat) :
    ∃ outer, entered indents column = column :: outer := by
  rw [entered]
  split
  · rename_i h
    exact List.head?_eq_some_iff.1 h
  · exact ⟨_, rfl⟩

/-- A key and its value are read up to the next word. -/
theorem Arrives.run_entry (hl : l.Sound) (hn : n ≤ l.keyColumn ∨ l.value = ['\n'])
    (hword : IsWord word) (hm : m.column = l.keyColumn)
    (h : s.Arrives m (l.key ++ ':' :: (l.value ++ (spaces n ++ word))) indents) :
    ∃ s', s.Leads (arrive .blockMapping indents l.keyColumn ++
        [.key, .scalar .plain (String.ofList l.key), .colon] ++ l.valueSigns) s' ∧
      s'.Arrives (m.over (l.key ++ ':' :: l.value ++ spaces n)) word
        (entered (within indents l.keyColumn) l.keyColumn) := by
  have hgap : Written.atGap (l.value ++ (spaces n ++ word)) = true := by
    have hvalue := hl.gap
    have hends := hl.ends
    cases hv : l.value with
    | nil => simp [hv, endsWith] at hends
    | cons c cs => rwa [hv] at hvalue
  obtain ⟨tokens, hkey⟩ := h.run_key hl.key hgap
  obtain ⟨outer, houter⟩ := exists_entered (within indents l.keyColumn) l.keyColumn
  have hcolumn : l.keyColumn ≤ (m.over (l.key ++ [':'])).column := by
    have hline : OneLine (l.key ++ [':']) := List.forall_mem_append.2
      ⟨(PlainFrom.of_canBePlain hl.key.plain).oneLine, List.forall_mem_singleton.2 rfl⟩
    rw [Mark.column_over hline, hm]
    exact Nat.le_add_right _ _
  rw [hm, houter] at hkey
  obtain ⟨s', hvalue, harrives⟩ := hl.value _ tokens outer n word hcolumn hn hword
  rw [houter]
  refine ⟨s', hkey.trans hvalue, ?_⟩
  simpa using harrives

/-- A line is read up to the next one. -/
theorem Arrives.run_line (hl : l.Sound) (hn : n ≤ l.keyColumn ∨ l.value = ['\n'])
    (hword : IsWord word) (hm : m.column = l.column)
    (h : s.Arrives m (l.word ++ (spaces n ++ word)) indents) :
    ∃ s', s.Leads (l.signs indents) s' ∧
      s'.Arrives (m.over (l.word ++ spaces n)) word (l.behind indents) := by
  rw [Line.word, List.append_assoc, List.append_assoc, List.cons_append] at h
  rw [Line.word, List.append_assoc, Line.signs, Line.behind, Line.behindDash]
  cases hitem : l.isItem with
  | true =>
    rw [hitem] at h
    obtain ⟨s₁, hdash, harrives⟩ := h.run_dash hl.key.isWord
    have hcolumn : (m.over ['-', ' ']).column = l.keyColumn := by
      rw [Line.keyColumn, hitem, ← hm]
      rfl
    obtain ⟨s₂, hentry, harrives⟩ := harrives.run_entry hl hn hword hcolumn
    rw [hm] at hdash hentry harrives
    exact ⟨s₂, by simpa using hdash.trans hentry, by simpa using harrives⟩
  | false =>
    have hcolumn : m.column = l.keyColumn := by
      rw [Line.keyColumn, hitem, hm]
      rfl
    rw [hitem] at h
    obtain ⟨s', hentry, harrives⟩ := Arrives.run_entry hl hn hword hcolumn h
    exact ⟨s', by simpa using hentry, by simpa using harrives⟩

theorem close_facing (m : Mark) (tokens : List Token) (indents : List Nat) :
    (facing m [] tokens indents true).close = .ok
      { rest := [], finish := m.newLine, keyAllowed := false
        tokens := tokens ++ indents.map (fun _ => ⟨.blockEnd, m.newLine⟩) ++
          [⟨.streamEnd, m.newLine⟩] } := by
  have hall : indents.takeWhile (fun _ => true) = indents ∧
      indents.dropWhile (fun _ => true) = [] := by
    simp
  simp [close, endDocument, closeBlocks, closeTo_eq, dropCandidate, facing, inFlow, add, bind,
    Except.bind, pure, Except.pure, hall]

/-- The text ends behind the last line, and with it all blocks. -/
theorem Arrives.run_end (h : s.Arrives m [] indents) :
    s.run.fault = none ∧
      s.run.tokens.map Token.sign = s.tokens.map Token.sign ++ signsOfLines indents [] := by
  have hstep := step_end h.approach rfl rfl (close_facing m _ _) rfl rfl
  have hall : List.replicate indents.length Sign.blockEnd =
      List.replicate (indents.takeWhile (m.column < ·)).length .blockEnd ++
        List.replicate (indents.dropWhile (m.column < ·)).length .blockEnd := by
    rw [List.replicate_append_replicate, ← List.length_append, List.takeWhile_append_dropWhile]
  rw [run, hstep]
  simp [signsOfLines, hall, -List.replicate_append_replicate]

/-- Lines are read one after the other. -/
theorem Arrives.run_lines (hlines : AreSound lines) (hm : m.column = columnOf lines)
    (h : s.Arrives m (wordOf lines) indents) :
    s.run.fault = none ∧
      s.run.tokens.map Token.sign = s.tokens.map Token.sign ++ signsOfLines indents lines := by
  induction lines generalizing s m indents with
  | nil => exact h.run_end
  | cons l lines ih =>
    obtain ⟨hl, hnext, hlines⟩ := hlines
    rw [wordOf, textOfLines_eq] at h
    obtain ⟨s', hlead, harrives⟩ := h.run_line hl hnext hlines.isWord hm
    obtain ⟨hfault, hsigns⟩ := ih hlines (hl.column_over m _) harrives
    rw [hlead.1]
    refine ⟨hfault, ?_⟩
    rw [hsigns, hlead.2, signsOfLines, List.append_assoc]

end Lexing

/-- A text that consists of lines has the tokens of these lines. -/
theorem tokens_textOfLines (h : AreSound lines) :
    (tokens (String.ofList (textOfLines lines))).fault = none ∧
      (tokens (String.ofList (textOfLines lines))).tokens.map Token.sign =
        signsOfLines [] lines := by
  have hprint : ∀ c ∈ textOfLines lines, isPrintable c = true := by
    induction lines with
    | nil => exact List.forall_mem_nil _
    | cons l lines ih => exact List.forall_mem_append.2 ⟨h.1.printable_chars, ih h.2.2⟩
  rw [tokens, String.toList_ofList, firstForbidden?_of_printable hprint]
  simp only [ofChars_of_printable hprint]
  have harrives : (Lexing.facing {} (textOfLines lines) [] [] true).Arrives
      (Mark.over {} (spaces (columnOf lines))) (wordOf lines) [] := by
    rw [textOfLines_eq]
    refine ⟨?_, by simp [Lexing.facing], rfl, rfl, rfl, rfl⟩
    exact (Lexing.skipGap_spaces _ true).trans (Lexing.skipGap_word h.isWord true)
  have hcolumn : (Mark.over {} (spaces (columnOf lines))).column = columnOf lines := by
    rw [Mark.column_over_spaces]
    exact Nat.zero_add _
  exact harrives.run_lines h hcolumn

end PageMend.Yaml
