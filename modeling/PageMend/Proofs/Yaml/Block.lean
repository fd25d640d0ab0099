import Mathlib.Data.List.DropRight
import PageMend.Proofs.Yaml.Plain

/-!
# Literal blocks are read back

A literal block keeps its lines as they are. The line breaks at its end are told apart by the
header, and so is the indentation where its first line does not show it. The block goes on up to a
word that is indented less (`readBlock_literal`).
-/

namespace PageMend.Yaml

open Written

variable {chomp : Chomp} {indentation n : Nat} {start finish m : Mark} {e : Ending} {c : Char}
  {cs bs rest word : List Char}

/-! ## One character -/

theorem readLines_spaces (h : m.column + n ≤ indentation) :
    readLines false chomp indentation start e false (place m (spaces n ++ rest)) =
      readLines false chomp indentation start e false (place (m.over (spaces n)) rest) := by
  induction n generalizing m with
  | zero => rfl
  | succ n ih =>
    have hm : m.column < indentation := by omega
    have hbehind : (m.behind ' ').column + n ≤ indentation := by
      rw [Mark.column_behind rfl]
      omega
    rw [spaces_succ, List.cons_append, place_cons, readLines]
    simpa [hm] using ih hbehind

/-- A line break at the end of a line. -/
theorem readLines_lineBreak (h : isBreak c = true) :
    readLines false chomp indentation start e true (place m (c :: rest)) =
      readLines false chomp indentation start { e with lineBreak := [c] } false
        (place (m.behind c) rest) := by
  simp [readLines, h]

/-- An empty line. -/
theorem readLines_emptyLine (h : isBreak c = true) :
    readLines false chomp indentation start e false (place m (c :: rest)) =
      readLines false chomp indentation start { e with emptyLines := e.emptyLines ++ [c] } false
        (place (m.behind c) rest) := by
  have hspace : c ≠ ' ' ∧ c ≠ '\t' := by constructor <;> rintro rfl <;> exact nomatch h
  simp [readLines, h, hspace]

/-- A character within a line. -/
theorem readLines_character (h : isBreak c = false) :
    readLines false chomp indentation start e true (place m (c :: rest)) =
      (readLines false chomp indentation start e true (place (m.behind c) rest)).map
        (.prepend [c]) := by
  simp [readLines, h]

/-- The first character of a line. -/
theorem readLines_first (h : isBreak c = false) (hm : m.column = indentation) :
    readLines false chomp indentation start e false (place m (c :: rest)) =
      (readLines false chomp indentation start { blankLine := isBlank c } true
        (place (m.behind c) rest)).map (.prepend (e.lineBreak ++ e.emptyLines ++ [c])) := by
  simp [readLines, h, hm, Ending.text]

/-- A word that is indented less ends the block. -/
theorem readLines_word (hword : IsWord word) (hm : m.column < indentation) :
    readLines false chomp indentation start e false (place m word) =
      .ok (e.tail chomp, place m word) := by
  cases word with
  | nil => rfl
  | cons c word =>
    have hc := hword c rfl
    simp [readLines, hc.ne_blank, hc.no_break, hm]

/-! ## Lines -/

/-- What was read and not yet handed on. Within a line there is nothing. -/
def Ending.held (e : Ending) (inLine : Bool) : List Char :=
  if inLine then [] else e.lineBreak ++ e.emptyLines

/-- Behind the first character of a line nothing is held back. -/
structure Ending.Fits (e : Ending) (inLine : Bool) : Prop where
  lineBreak : inLine = true → e.lineBreak = []
  emptyLines : inLine = true → e.emptyLines = []

theorem literalFrom_break (h : isBreak c = true) (atStart : Bool) :
    literalFrom indentation atStart (c :: cs) = c :: literalFrom indentation true cs := if_pos h

theorem literalFrom_start (h : isBreak c = false) :
    literalFrom indentation true (c :: cs) =
      spaces indentation ++ c :: literalFrom indentation false cs := by
  simp [literalFrom, h]

theorem literalFrom_within (h : isBreak c = false) :
    literalFrom indentation false (c :: cs) = c :: literalFrom indentation false cs := by
  simp [literalFrom, h]

theorem prepend_prepend {xs ys : List Char} {r : Except Fault Cut} :
    (r.map (.prepend ys)).map (Cut.prepend xs) = r.map (Cut.prepend (xs ++ ys)) := by
  cases r with
  | error fault => rfl
  | ok t => simp [Except.map, Cut.prepend]

theorem Ending.fits_between (e : Ending) : e.Fits false := ⟨nofun, nofun⟩

/-- Characters are read to the end of their last line, where reading goes on. What was held back
comes in front of them. -/
def ReadsLines (chomp : Chomp) (indentation : Nat) (start : Mark) (rest : List Char) (e : Ending)
    (inLine : Bool) (m : Mark) (cs : List Char) : Prop :=
  ∃ e' : Ending, e'.Fits true ∧
    readLines false chomp indentation start e inLine
        (place m (literalFrom indentation (!inLine) cs ++ rest)) =
      (readLines false chomp indentation start e' true
        (place (m.over (literalFrom indentation (!inLine) cs)) rest)).map
          (.prepend (e.held inLine ++ cs))

theorem readsLines_nil (he : e.Fits true) :
    ReadsLines chomp indentation start rest e true m [] := by
  refine ⟨e, he, ?_⟩
  cases h : readLines false chomp indentation start e true (place m rest) <;>
    simp [literalFrom, h, Except.map, Cut.prepend, Ending.held]

/-- A line break is held back until more is read. -/
theorem readsLines_break {inLine : Bool} (hbreak : isBreak c = true) (he : e.Fits inLine)
    (h : ∀ e : Ending, ReadsLines chomp indentation start rest e false (m.behind c) cs) :
    ReadsLines chomp indentation start rest e inLine m (c :: cs) := by
  rw [ReadsLines, literalFrom_break hbreak, List.cons_append]
  cases inLine with
  | true =>
    obtain ⟨e', he', hread⟩ := h { e with lineBreak := [c] }
    refine ⟨e', he', ?_⟩
    rw [readLines_lineBreak hbreak]
    simpa [Ending.held, he.emptyLines rfl, -place_append] using hread
  | false =>
    obtain ⟨e', he', hread⟩ := h { e with emptyLines := e.emptyLines ++ [c] }
    refine ⟨e', he', ?_⟩
    rw [readLines_emptyLine hbreak]
    simpa [Ending.held, -place_append] using hread

/-- A character of a line, which may be its first. -/
theorem readsLines_character {inLine : Bool} (hbreak : isBreak c = false) (he : e.Fits inLine)
    (hm : inLine = false → m.column = 0)
    (h : ∀ (e : Ending) (m : Mark), e.Fits true →
      ReadsLines chomp indentation start rest e true m cs) :
    ReadsLines chomp indentation start rest e inLine m (c :: cs) := by
  cases inLine with
  | true =>
    obtain ⟨e', he', hread⟩ := h e (m.behind c) he
    rw [Bool.not_true] at hread
    refine ⟨e', he', ?_⟩
    rw [Bool.not_true, literalFrom_within hbreak, List.cons_append,
      readLines_character hbreak, hread, prepend_prepend]
    rfl
  | false =>
    have hspaces : (m.over (spaces indentation)).column = indentation := by
      rw [Mark.column_over_spaces, hm rfl, Nat.zero_add]
    obtain ⟨e', he', hread⟩ := h { blankLine := isBlank c }
      ((m.over (spaces indentation)).behind c) ⟨fun _ => rfl, fun _ => rfl⟩
    rw [Bool.not_true] at hread
    refine ⟨e', he', ?_⟩
    rw [Bool.not_false, literalFrom_start hbreak, List.append_assoc, List.cons_append,
      readLines_spaces (by rw [hm rfl]; omega), readLines_first hbreak hspaces, hread,
      prepend_prepend]
    simp [Ending.held]

theorem readsLines_of_last {inLine : Bool} (hne : cs ≠ [])
    (hlast : ∀ c ∈ cs.getLast?, isBreak c = false) (he : e.Fits inLine)
    (hm : inLine = false → m.column = 0) :
    ReadsLines chomp indentation start rest e inLine m cs := by
  induction cs generalizing e inLine m with
  | nil => exact absurd rfl hne
  | cons c cs ih =>
    have htail : cs ≠ [] → ∀ c ∈ cs.getLast?, isBreak c = false := by
      intro hne
      rwa [List.getLast?_cons_of_ne_nil hne] at hlast
    cases hbreak : isBreak c with
    | true =>
      have hne : cs ≠ [] := by
        rintro rfl
        exact Bool.false_ne_true ((hlast c rfl).symm.trans hbreak)
      exact readsLines_break hbreak he fun e =>
        ih hne (htail hne) e.fits_between fun _ => Mark.column_behind_break hbreak
    | false =>
      refine readsLines_character hbreak he hm fun e m he => ?_
      by_cases hne : cs = []
      · subst hne
        exact readsLines_nil he
      · exact ih hne (htail hne) he (absurd · (by decide))

theorem printable_literalFrom {atStart : Bool} (h : ∀ c ∈ cs, isPrintable c = true) :
    ∀ c ∈ literalFrom indentation atStart cs, isPrintable c = true := by
  induction cs generalizing atStart with
  | nil => exact List.forall_mem_nil _
  | cons c cs ih =>
    obtain ⟨hc, hcs⟩ := List.forall_mem_cons.1 h
    rw [literalFrom]
    split
    · exact List.forall_mem_cons.2 ⟨hc, ih hcs⟩
    · refine List.forall_mem_append.2 ⟨?_, List.forall_mem_cons.2 ⟨hc, ih hcs⟩⟩
      split
      · exact printable_spaces indentation
      · exact List.forall_mem_nil _

theorem printable_literal (h : ∀ c ∈ cs, isPrintable c = true) :
    ∀ c ∈ literal indentation cs, isPrintable c = true := by
  have hhint : ∀ b : Bool, ∀ c ∈ if b then (toString step).toList else [],
      isPrintable c = true := by
    intro b
    cases b <;> exact List.all_eq_true.1 rfl
  have hchomp : ∀ c ∈ chompIndicator cs, isPrintable c = true := by
    unfold chompIndicator
    repeat' split
    all_goals exact List.all_eq_true.1 rfl
  intro c hc
  simp only [literal, List.mem_append, List.mem_cons] at hc
  rcases hc with ((rfl | hc) | hc) | rfl | hc
  · rfl
  · exact hhint _ c hc
  · exact hchomp c hc
  · rfl
  · exact printable_literalFrom h c hc

/-! ## The end -/

/-- Line breaks behind a line break are empty lines. -/
theorem readLines_emptyLines (hbs : ∀ c ∈ bs, isBreak c = true) :
    readLines false chomp indentation start e false (place m (bs ++ rest)) =
      readLines false chomp indentation start { e with emptyLines := e.emptyLines ++ bs } false
        (place (m.over bs) rest) := by
  induction bs generalizing e m with
  | nil => simp
  | cons c bs ih =>
    obtain ⟨hc, hbs⟩ := List.forall_mem_cons.1 hbs
    rw [List.cons_append, readLines_emptyLine hc, ih hbs]
    simp [-place_append]

theorem column_over_breaks (hbs : ∀ c ∈ bs, isBreak c = true) (hm : m.column = 0) :
    (m.over bs).column = 0 := by
  induction bs generalizing m with
  | nil => exact hm
  | cons c bs ih =>
    obtain ⟨hc, hbs⟩ := List.forall_mem_cons.1 hbs
    exact ih hbs (Mark.column_behind_break hc)

/-- The empty lines at the end, and the word behind them. -/
theorem readLines_end (hbs : ∀ c ∈ bs, isBreak c = true) (hm : m.column = 0) (hword : IsWord word)
    (hn : n < indentation) :
    readLines false chomp indentation start e false (place m (bs ++ (spaces n ++ word))) =
      .ok (({ e with emptyLines := e.emptyLines ++ bs } : Ending).tail chomp,
        place (m.over (bs ++ spaces n)) word) := by
  have hcolumn := column_over_breaks hbs hm
  have hspaces : ((m.over bs).over (spaces n)).column < indentation := by
    rw [Mark.column_over_spaces, hcolumn]
    omega
  have hfew : (m.over bs).column + n ≤ indentation := by omega
  rw [readLines_emptyLines hbs, readLines_spaces hfew, readLines_word hword hspaces,
    Mark.over_append]

theorem literalFrom_append_breaks (hbs : ∀ c ∈ bs, isBreak c = true) (atStart : Bool) :
    literalFrom indentation atStart (cs ++ bs) = literalFrom indentation atStart cs ++ bs := by
  induction cs generalizing atStart with
  | nil =>
    induction bs generalizing atStart with
    | nil => rfl
    | cons c bs ih =>
      obtain ⟨hc, hbs⟩ := List.forall_mem_cons.1 hbs
      exact (literalFrom_break hc atStart).trans (congrArg (c :: ·) (ih hbs true))
  | cons c cs ih =>
    rw [List.cons_append, literalFrom, literalFrom]
    split
    · rw [ih, List.cons_append]
    · rw [ih, List.append_assoc, List.cons_append]

/-- What becomes of the line breaks behind some lines. -/
def chompFor (lines : List Char) : List Char → Chomp
  | [] => .strip
  | [_] => if lines = [] then .keep else .clip
  | _ => .keep

/-- How a header says what becomes of the end. -/
def Chomp.indicator : Chomp → List Char
  | .strip => ['-']
  | .clip => []
  | .keep => ['+']

theorem chompIndicator_append (hcs : ∀ c ∈ cs.getLast?, isBreak c = false)
    (hbs : ∀ c ∈ bs, isBreak c = true) :
    chompIndicator (cs ++ bs) = (chompFor cs bs).indicator := by
  have hback : ∀ c ∈ bs.reverse, isBreak c = true := fun c hc => hbs c (List.mem_reverse.1 hc)
  rw [← List.head?_reverse] at hcs
  rw [chompIndicator, List.reverse_append]
  match bs with
  | [] =>
    cases h : cs.reverse with
    | nil => rfl
    | cons c before =>
      have hc := hcs c (by rw [h]; rfl)
      cases before <;> simp [hc, chompFor, Chomp.indicator]
  | [b] =>
    have hb := hbs b List.mem_cons_self
    cases h : cs.reverse with
    | nil => simp [hb, chompFor, List.reverse_eq_nil_iff.1 h, Chomp.indicator]
    | cons c before =>
      have hc := hcs c (by rw [h]; rfl)
      have hne : cs ≠ [] := fun he => by simp [he] at h
      simp [hb, hc, chompFor, hne, Chomp.indicator]
  | b :: d :: bs =>
    match h : (b :: d :: bs).reverse with
    | [] | [_] => simpa using congrArg List.length h
    | x :: y :: before =>
      rw [h] at hback
      simp [hback x, hback y, chompFor, Chomp.indicator]

/-- A block is read up to a word that is indented less. -/
theorem readLines_literal (hcs : ∀ c ∈ cs.getLast?, isBreak c = false)
    (hbs : ∀ c ∈ bs, isBreak c = true) (hne : cs ++ bs ≠ []) (hm : m.column = 0)
    (hword : IsWord word) (hn : n < indentation) :
    readLines false (chompFor cs bs) indentation start {} false
        (place m (literalFrom indentation true cs ++
          ((if bs = [] then ['\n'] else bs) ++ (spaces n ++ word)))) =
      .ok (cs ++ bs, place (m.over (literalFrom indentation true cs ++
        ((if bs = [] then ['\n'] else bs) ++ spaces n))) word) := by
  by_cases hlines : cs = []
  · -- all breaks belong to empty lines
    subst hlines
    have hne : bs ≠ [] := hne
    have hchomp : chompFor [] bs = .keep := by
      obtain ⟨b, more, rfl⟩ := List.exists_cons_of_ne_nil hne
      cases more <;> rfl
    rw [if_neg hne, literalFrom, List.nil_append, hchomp, readLines_end hbs hm hword hn]
    rfl
  · -- the first break ends the last line
    have hread : ∀ rest, ReadsLines (chompFor cs bs) indentation start rest {} false m cs :=
      fun _ => readsLines_of_last hlines hcs (Ending.fits_between _) (fun _ => hm)
    obtain ⟨e, he, hread⟩ := hread ((if bs = [] then ['\n'] else bs) ++ (spaces n ++ word))
    rw [Bool.not_false] at hread
    rw [hread]
    have hbreaks : ∃ b more, (if bs = [] then ['\n'] else bs) = b :: more ∧
        (∀ c ∈ b :: more, isBreak c = true) ∧
        ∀ e : Ending, ({ e with lineBreak := [b], emptyLines := more } : Ending).tail
          (chompFor cs bs) = bs := by
      match bs with
      | [] => exact ⟨'\n', [], rfl, List.forall_mem_singleton.2 rfl, fun _ => rfl⟩
      | [b] => exact ⟨b, [], rfl, hbs, fun _ => by rw [chompFor, if_neg hlines]; rfl⟩
      | b :: d :: bs => exact ⟨b, d :: bs, rfl, hbs, fun _ => rfl⟩
    obtain ⟨b, more, heq, hall, htail⟩ := hbreaks
    obtain ⟨hb, hmore⟩ := List.forall_mem_cons.1 hall
    rw [heq, List.cons_append, readLines_lineBreak hb,
      readLines_end hmore (Mark.column_behind_break hb) hword hn]
    simp only [he.emptyLines rfl, List.nil_append, htail]
    simp [Except.map, Cut.prepend, Ending.held]

/-! ## The header -/

theorem readHeader_literal (hinted : Bool) :
    readHeader start finish
        (place m ((if hinted then ['2'] else []) ++ (chomp.indicator ++ '\n' :: rest))) =
      .ok (⟨chomp, if hinted then some 2 else none⟩,
        place (m.over ((if hinted then ['2'] else []) ++ (chomp.indicator ++ ['\n']))) rest) := by
  cases hinted <;> cases chomp <;>
    simp [readHeader, readIndicators, takeChomp?, takeIncrement, Chomp.indicator,
      Chomp.ofIndicator?, bind, Except.bind, pure, Except.pure, skipBlanks, skipComment, after?,
      atLineEnd, skipBreak, isBlank, isBreak]

/-- The first line of a text shows the indentation unless it starts with a space or is empty. -/
theorem findIndentation_spaces (hc : c ≠ ' ' ∧ c ≠ '\t') (hbreak : isBreak c = false) :
    findIndentation start m.column (place m (spaces n ++ c :: rest)) = .ok (m.column + n) := by
  induction n generalizing m with
  | zero => simp [spaces, findIndentation, hc, hbreak]
  | succ n ih =>
    have hcolumn : (m.behind ' ').column = m.column + 1 := Mark.column_behind rfl
    have hwidest : max m.column (m.column + 1) = (m.behind ' ').column := by omega
    rw [spaces_succ, List.cons_append, place_cons, findIndentation, if_pos rfl, hwidest, ih]
    rw [hcolumn, Nat.add_assoc, Nat.add_comm 1]

theorem endsWith_append {p : Char → Bool} {xs ys : List Char} (h : ys ≠ []) :
    endsWith p (xs ++ ys) = endsWith p ys := by
  rw [endsWith, endsWith, List.getLast?_append_of_ne_nil xs h]

theorem endsWith_cons {p : Char → Bool} (h : endsWith p cs = true) :
    endsWith p (c :: cs) = true := by
  cases cs with
  | nil => exact nomatch h
  | cons d ds =>
    rw [← List.singleton_append, endsWith_append (List.cons_ne_nil d ds)]
    exact h

theorem literalFrom_ne_nil (h : cs ≠ []) (atStart : Bool) :
    literalFrom indentation atStart cs ≠ [] := by
  cases cs with
  | nil => exact absurd rfl h
  | cons c cs =>
    rw [literalFrom]
    split <;> simp

theorem endsWith_literalFrom {p : Char → Bool} (atStart : Bool) :
    endsWith p (literalFrom indentation atStart cs) = endsWith p cs := by
  induction cs generalizing atStart with
  | nil => rfl
  | cons c cs ih =>
    have hnext : ∀ atStart, endsWith p (c :: literalFrom indentation atStart cs) =
        endsWith p (c :: cs) := by
      intro atStart
      have hc := ih atStart
      cases cs with
      | nil => rfl
      | cons d ds =>
        rw [← List.singleton_append,
          endsWith_append (literalFrom_ne_nil (List.cons_ne_nil d ds) atStart), hc]
        have hlast : endsWith p ([c] ++ d :: ds) = _ := endsWith_append (List.cons_ne_nil d ds)
        exact hlast.symm
    rw [literalFrom]
    split
    · exact hnext true
    · rw [endsWith_append (List.cons_ne_nil _ _)]
      exact hnext false

/-- Whether the header of a text says how far it is indented. -/
def isHinted (cs : List Char) : Bool := startsWith isSpace cs || startsWith isBreak cs

/-- The lines of a block, once its text is cut in front of the last breaks. -/
theorem endLine_literal (hcs : ∀ c ∈ cs.getLast?, isBreak c = false)
    (hbs : ∀ c ∈ bs, isBreak c = true) (hne : cs ++ bs ≠ []) :
    endLine (literal indentation (cs ++ bs)) =
      '|' :: ((if isHinted (cs ++ bs) then ['2'] else []) ++
        ((chompFor cs bs).indicator ++ '\n' :: (literalFrom indentation true cs ++
          (if bs = [] then ['\n'] else bs)))) := by
  have hliteral : literal indentation (cs ++ bs) =
      ('|' :: ((if isHinted (cs ++ bs) then ['2'] else []) ++ (chompFor cs bs).indicator ++
        ['\n'])) ++ (literalFrom indentation true cs ++ bs) := by
    rw [literal, chompIndicator_append hcs hbs, literalFrom_append_breaks hbs]
    simp only [isHinted, List.append_assoc, List.cons_append, List.nil_append]
    rfl
  have hends : endsWith isBreak (literal indentation (cs ++ bs)) = !bs.isEmpty := by
    rw [hliteral, endsWith_append, ← literalFrom_append_breaks hbs, endsWith_literalFrom]
    · cases bs with
      | nil =>
        rw [List.append_nil] at hne ⊢
        rw [endsWith, List.getLast?_eq_some_getLast hne]
        exact hcs _ (List.getLast_mem_getLast? hne)
      | cons b bs =>
        rw [endsWith_append (List.cons_ne_nil b bs), endsWith,
          List.getLast?_eq_some_getLast (List.cons_ne_nil b bs)]
        exact hbs _ (List.getLast_mem _)
    · rw [← literalFrom_append_breaks hbs]
      exact literalFrom_ne_nil hne true
  rw [endLine, hends, hliteral]
  cases bs <;> simp

/-- Where the header says nothing, the first line shows the indentation. -/
theorem findIndentation_literal (hprint : ∀ c ∈ cs, isPrintable c = true)
    (hbs : ∀ c ∈ bs, isBreak c = true) (hne : cs ++ bs ≠ []) (hhint : isHinted (cs ++ bs) = false)
    (hm : m.column = 0) :
    findIndentation start 0 (place m (literalFrom indentation true cs ++ rest)) =
      .ok indentation := by
  cases cs with
  | nil =>
    obtain ⟨b, bs, rfl⟩ := List.exists_cons_of_ne_nil hne
    have hb := hbs b List.mem_cons_self
    simp [isHinted, startsWith, hb] at hhint
  | cons c cs =>
    simp only [isHinted, startsWith, List.cons_append, List.head?_cons, Option.map_some,
      Option.getD_some, Bool.or_eq_false_iff, isSpace, beq_eq_false_iff_ne] at hhint
    obtain ⟨hspace, hbreak⟩ := hhint
    have hc := ne_of_printable (hprint c List.mem_cons_self)
    have hfind : findIndentation start m.column (place m (spaces indentation ++
        c :: (literalFrom indentation false cs ++ rest))) = .ok _ :=
      findIndentation_spaces ⟨hspace, hc.1⟩ hbreak
    rw [hm, Nat.zero_add] at hfind
    rw [literalFrom_start hbreak, List.append_assoc]
    exact hfind

/-- A text is some lines and the line breaks behind them. -/
theorem exists_lines (cs : List Char) :
    ∃ lines bs, lines ++ bs = cs ∧ (∀ c ∈ lines.getLast?, isBreak c = false) ∧
      ∀ c ∈ bs, isBreak c = true := by
  refine ⟨cs.rdropWhile isBreak, cs.rtakeWhile isBreak, List.rdropWhile_append_rtakeWhile, ?_,
    fun c => List.mem_rtakeWhile_imp⟩
  intro c hc
  obtain ⟨hne, rfl⟩ := List.mem_getLast?_eq_getLast hc
  exact Bool.eq_false_iff.2 (List.rdropWhile_last_not isBreak cs hne)

/-- A literal block is read behind its indicator, up to a word that is indented less than the
collection in which it stands. -/
theorem readBlock_literal {column : Nat} (h : canBeLiteral cs = true) (hne : cs ≠ [])
    (hword : IsWord word) (hn : n ≤ column) {after : List Char}
    (hafter : endLine (literal (column + step) cs) = '|' :: after) :
    readBlock false (column + 1) start finish (place m (after ++ (spaces n ++ word))) =
      .ok (cs, place (m.over (after ++ spaces n)) word) := by
  obtain ⟨lines, bs, rfl, hlast, hbreaks⟩ := exists_lines cs
  rw [endLine_literal hlast hbreaks hne, List.cons.injEq] at hafter
  obtain rfl := hafter.2
  have hprint : ∀ c ∈ lines, isPrintable c = true := by
    simp only [canBeLiteral, Bool.and_eq_true, List.all_append, List.all_eq_true] at h
    exact h.1.1.1
  -- the header ends with a line, and the lines begin in the first column
  have hheader : ∀ rest, readHeader start finish
      (place m ((if isHinted (lines ++ bs) then ['2'] else []) ++
        ((chompFor lines bs).indicator ++ '\n' :: rest))) = .ok (_, place _ rest) := fun _ =>
    readHeader_literal _
  generalize hbelow : m.over ((if isHinted (lines ++ bs) then ['2'] else []) ++
    ((chompFor lines bs).indicator ++ ['\n'])) = below at hheader
  have hcolumn : below.column = 0 := by
    rw [← hbelow, Mark.over_append, Mark.over_append]
    exact Mark.column_behind_break (c := '\n') rfl
  have hfew : n < column + step := by
    rw [step]
    omega
  have hread : readLines false (chompFor lines bs) (column + step) start {} false _ = _ :=
    readLines_literal hlast hbreaks hne hcolumn hword hfew
  have hplace : (m.over ((if isHinted (lines ++ bs) then ['2'] else []) ++
      ((chompFor lines bs).indicator ++ '\n' :: (literalFrom (column + step) true lines ++
        (if bs = [] then ['\n'] else bs))) ++ spaces n)) =
      below.over (literalFrom (column + step) true lines ++
        ((if bs = [] then ['\n'] else bs) ++ spaces n)) := by
    rw [← hbelow]
    simp
  rw [hplace, readBlock]
  simp only [List.append_assoc, List.cons_append, hheader, bind, Except.bind]
  cases hhint : isHinted (lines ++ bs) with
  | true => exact hread
  | false =>
    have hwide : max (column + step) (max (column + 1) 1) = column + step := by
      rw [step]
      omega
    simp only [Bool.false_eq_true, if_false, Except.map, hwide,
      findIndentation_literal hprint hbreaks hne hhint hcolumn]
    exact hread

end PageMend.Yaml
