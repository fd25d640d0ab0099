import PageMend.Proofs.Yaml.Block
import PageMend.Proofs.Yaml.Quoted
import PageMend.Yaml.Lexing

/-!
# Dashes and keys become tokens

The reader arrives at a piece of a line behind a gap, where the blocks right of it end. A dash opens
a block sequence (`Arrives.run_dash`). A key is taken as a scalar first, and the key token is put
in front of it when the colon comes, with that of a block mapping unless one is open there
(`Arrives.run_key`). What was read is told by the signs of the tokens, since nothing depends on
their places later on.
-/

namespace PageMend.Yaml

open Written

variable {s s' : Lexing} {m : Mark} {cs rest word : List Char} {indents : List Nat}
  {tokens : List Token} {c : Char} {keyAllowed : Bool}

namespace Lexing

/-! ## Several steps -/

/-- Reading goes on from one state as from the other, which has so many tokens more. -/
def Leads (s : Lexing) (signs : List Sign) (s' : Lexing) : Prop :=
  s.run = s'.run ∧ s'.tokens.map Token.sign = s.tokens.map Token.sign ++ signs

theorem Leads.trans {signs signs' : List Sign} {s'' : Lexing} (h : s.Leads signs s')
    (h' : s'.Leads signs' s'') : s.Leads (signs ++ signs') s'' :=
  ⟨h.1.trans h'.1, by rw [h'.2, h.2, List.append_assoc]⟩

/-- A step that takes something and does not end the text. -/
theorem run_eq_of_step (h : s.step = .ok s') (hrest : s'.rest.length < s.rest.length)
    (hlast : ∀ t ∈ s'.tokens.getLast?, t.sign ≠ .streamEnd) : s.run = s'.run := by
  have hend : s'.tokens.getLast?.map (·.sign) ≠ some .streamEnd := by
    intro he
    obtain ⟨t, ht, hsign⟩ := Option.map_eq_some_iff.1 he
    exact hlast t ht hsign
  rw [run, h]
  simp only [if_neg hend, dif_pos hrest]

/-! ## Arriving at a piece -/

/-- The state in front of some characters, which are all that is left. -/
def facing (m : Mark) (cs : List Char) (tokens : List Token) (indents : List Nat)
    (keyAllowed : Bool) : Lexing :=
  { rest := place m cs, finish := m.over cs, tokens, indents, keyAllowed }

/-- Behind a gap, some characters come at a place where a key may start. -/
structure Arrives (s : Lexing) (m : Mark) (cs : List Char) (indents : List Nat) : Prop where
  gap : skipGap false s.keyAllowed false s.rest = (place m cs, true)
  finish : s.finish = m.over cs
  barrier : s.barrier = none
  indents : s.indents = indents
  candidate : s.candidate = none
  outer : s.outer = []

/-- A candidate that is in reach is kept. -/
theorem expire_eq (hstale : ∀ c ∈ s.candidate, c.isStale s.here = false) (houter : s.outer = []) :
    s.expire = .ok s := by
  obtain ⟨rest, finish, barrier, tokens, indents, candidate, outer, keyAllowed⟩ := s
  obtain rfl : outer = [] := houter
  cases candidate with
  | none => rfl
  | some c =>
    have hc := hstale c rfl
    have hcandidates : candidates ⟨rest, finish, barrier, tokens, indents, some c, [], keyAllowed⟩ =
        [c] := rfl
    simp [expire, hcandidates, Option.filter, hc]

theorem expire_of_none (hcandidate : s.candidate = none) (houter : s.outer = []) :
    s.expire = .ok s :=
  expire_eq (fun c hc => absurd (hcandidate ▸ hc) (Option.not_mem_none c)) houter

theorem closeTo_eq (ends : Nat → Bool) (mark : Mark) (indents : List Nat) :
    closeTo ends mark indents =
      (indents.dropWhile ends, (indents.takeWhile ends).map fun _ => ⟨.blockEnd, mark⟩) := by
  induction indents with
  | nil => rfl
  | cons column outer ih =>
    cases h : ends column <;> simp [closeTo, h, ih]

/-- Blocks that lie right of the place end. -/
theorem Arrives.approach (h : s.Arrives m cs indents) :
    s.approach = .ok (facing m cs
      (s.tokens ++ (indents.takeWhile (m.column < ·)).map fun _ => ⟨.blockEnd, m⟩)
      (indents.dropWhile (m.column < ·)) true) := by
  obtain ⟨rest, finish, barrier, tokens, indents', candidate, outer, keyAllowed⟩ := s
  obtain ⟨hgap, rfl, rfl, rfl, rfl, rfl⟩ := h
  have hgap' : skipGap false keyAllowed false rest = (place m cs, true) := hgap
  simp [Lexing.approach, inFlow, hgap', expire_eq, closeBlocks, closeTo_eq, here,
    facing, bind, Except.bind, pure, Except.pure]

/-- Within a line no block ends. -/
theorem approach_within {rest : List Placed} {keyAllowed : Bool}
    (hgap : skipGap false s.keyAllowed false s.rest = (rest, keyAllowed)) (houter : s.outer = [])
    (hstale : ∀ c ∈ s.candidate, c.isStale (markOf s.finish rest) = false)
    (hindents : ∀ column ∈ s.indents.head?, column ≤ (markOf s.finish rest).column) :
    s.approach = .ok { s with rest, keyAllowed } := by
  have hexpire := expire_eq (s := { s with rest, keyAllowed }) hstale houter
  obtain ⟨rest', finish, barrier, tokens, indents, candidate, outer, keyAllowed'⟩ := s
  obtain rfl : outer = [] := houter
  have hgap' : skipGap false keyAllowed' false rest' = (rest, keyAllowed) := hgap
  cases indents with
  | nil => simp [Lexing.approach, inFlow, hgap', hexpire, closeBlocks, closeTo, bind, Except.bind,
      pure, Except.pure]
  | cons column outer =>
    have hcolumn : ¬(markOf finish rest).column < column := Nat.not_lt.2 (hindents column rfl)
    simp [Lexing.approach, inFlow, hgap', hexpire, closeBlocks, closeTo, here, hcolumn, bind,
      Except.bind, pure, Except.pure]

theorem look_eq (hbarrier : s.barrier = none) (count : Nat) : s.look count = .ok () := by
  rw [look, hbarrier]

/-- A step, once it is known what is approached and what is taken. -/
theorem step_eq {taken : Lexing} {p : Placed} {after : List Placed}
    (happroach : s.approach = .ok s') (hbarrier : s'.barrier = none) (hrest : s'.rest = p :: after)
    (htake : s'.takeToken p.mark after p.char = .ok taken) (hfinal : taken.barrier = none)
    (hexpire : taken.expire = .ok taken) : s.step = .ok taken := by
  rw [step, happroach]
  simp only [bind, Except.bind, look_eq hbarrier, hrest, htake, look_eq hfinal, hexpire]

/-- The step at the end of the text. -/
theorem step_end {closed : Lexing} (happroach : s.approach = .ok s') (hbarrier : s'.barrier = none)
    (hrest : s'.rest = []) (hclose : s'.close = .ok closed) (hfinal : closed.barrier = none)
    (hexpire : closed.expire = .ok closed) : s.step = .ok closed := by
  rw [step, happroach]
  simp only [bind, Except.bind, look_eq hbarrier, hrest, hclose, look_eq hfinal, hexpire]

theorem length_skipGap (inFlow keyAllowed inComment : Bool) (cs : List Placed) :
    (skipGap inFlow keyAllowed inComment cs).1.length ≤ cs.length := by
  induction cs generalizing keyAllowed inComment with
  | nil => exact Nat.le_refl _
  | cons p cs ih =>
    rw [skipGap]
    split
    · exact Nat.le_succ_of_le (ih _ _)
    split
    · exact Nat.le_succ_of_le (ih _ _)
    split
    · exact Nat.le_succ_of_le (ih _ _)
    split
    · exact Nat.le_succ_of_le (ih _ _)
    · exact Nat.le_refl _

theorem Arrives.length_le (h : s.Arrives m cs indents) : cs.length ≤ s.rest.length := by
  have hle := length_skipGap false s.keyAllowed false s.rest
  rwa [h.gap, length_place] at hle

/-! ## Gaps -/

theorem skipGap_word (hword : IsWord word) (keyAllowed : Bool) :
    skipGap false keyAllowed false (place m word) = (place m word, keyAllowed) := by
  cases word with
  | nil => rfl
  | cons c word =>
    have hc := hword c rfl
    simp [skipGap, hc.no_break, hc.ne_blank, hc.no_comment, hc.no_mark]

theorem skipGap_spaces (n : Nat) (keyAllowed : Bool) :
    skipGap false keyAllowed false (place m (spaces n ++ cs)) =
      skipGap false keyAllowed false (place (m.over (spaces n)) cs) := by
  induction n generalizing m with
  | zero => rfl
  | succ n ih =>
    rw [spaces_succ, List.cons_append, place_cons, skipGap]
    simpa [isBreak] using ih

/-- The end of a line and the spaces in front of a word. -/
theorem skipGap_line (hword : IsWord word) (n : Nat) (keyAllowed : Bool) :
    skipGap false keyAllowed false (place m ('\n' :: (spaces n ++ word))) =
      (place (m.over ('\n' :: spaces n)) word, true) := by
  rw [place_cons, skipGap]
  simpa [isBreak] using (skipGap_spaces (m := m.behind '\n') n true).trans (skipGap_word hword true)

theorem arrives_line (hword : IsWord word) (n : Nat) (keyAllowed : Bool) :
    (facing m ('\n' :: (spaces n ++ word)) tokens indents keyAllowed).Arrives
      (m.over ('\n' :: spaces n)) word indents :=
  ⟨skipGap_line hword n keyAllowed, by simp [facing], rfl, rfl, rfl, rfl⟩

/-! ## A key -/

end Lexing

/-- The name of a key. It stands plain, and its colon is in reach. -/
structure IsName (key : List Char) : Prop where
  plain : canBePlain key = true
  nonempty : key ≠ []
  head : ∀ c ∈ key.head?, c ≠ '-' ∧ c ≠ '.'
  short : (Mark.over {} key).index ≤ maxKeyLength

theorem Mark.index_over (m : Mark) (cs : List Char) :
    (m.over cs).index = m.index + (Mark.over {} cs).index := by
  induction cs generalizing m with
  | nil => rfl
  | cons c cs ih =>
    have hbehind : ∀ m : Mark, (m.behind c).index = m.index + c.utf8Size := by
      intro m
      rw [Mark.behind]
      split <;> rfl
    rw [Mark.over_cons, Mark.over_cons, ih, ih (Mark.behind {} c), hbehind, hbehind, Nat.zero_add,
      Nat.add_assoc]

namespace Lexing

/-- The first character of a plain scalar means nothing else there. -/
theorem takeToken_plain (hplain : startsWithIndicator (c :: cs) = false)
    (hblank : isBlank c = false) (hm : Apart m c) {after : List Placed}
    (hs : s.rest = ⟨c, m⟩ :: after) (houter : s.outer = [])
    (hgap : Yaml.atGap after = true → Written.atGap cs = true) :
    s.takeToken m after c = s.takePlain m := by
  simp only [startsWithIndicator, Bool.or_eq_false_iff, Bool.and_eq_false_iff] at hplain
  obtain ⟨hindicator, hdash⟩ := hplain
  have hafter : c = '-' ∨ c = '?' ∨ c = ':' → Yaml.atGap after = false := by
    intro hc
    have hcs : Written.atGap cs = false := by
      refine hdash.resolve_left ?_
      rcases hc with rfl | rfl | rfl <;> decide
    exact Bool.eq_false_iff.2 fun h => Bool.false_ne_true (hcs.symm.trans (hgap h))
  have hstarts : startsPlain false c after = true := by
    rw [startsPlain]
    split
    · rename_i hc
      have hgap := hafter (.inl hc)
      cases after with
      | nil => rfl
      | cons p after =>
        rw [Yaml.atGap, Bool.or_eq_false_iff] at hgap
        simp [hgap.1]
    split
    · rename_i hc
      simp [hafter (.inr hc)]
    · have hother : ",[]\x7b\x7d#&*!|>'\"%@`".toList.contains c = false := by
        simp at hindicator ⊢
        simp [hindicator]
      rw [hblank, hother]
      rfl
  have htriple : ∀ d, (m.column ≠ 0 ∨ c ≠ d) → atTriple d s.rest = false := fun d hd => by
    rw [hs]
    exact atTriple_eq_false hd
  have hflow : s.inFlow = false := by rw [inFlow, houter]; rfl
  have hgap : ∀ d, d = '-' ∨ d = '?' ∨ d = ':' → ¬(c = d ∧ Yaml.atGap after = true) := by
    rintro d hd ⟨rfl, h⟩
    simp [hafter hd] at h
  simp at hindicator
  simp [takeToken, hindicator, hflow, hstarts, hgap, htriple '-' (hm.imp_right And.left),
    htriple '.' (hm.imp_right And.right)]

/-- The state behind a key, in front of its colon. -/
def noted (m : Mark) (key rest : List Char) (tokens : List Token) (indents : List Nat) : Lexing :=
  { facing (m.over key) (':' :: rest) (tokens ++ [⟨.scalar .plain (String.ofList key), m⟩])
      indents false with
    candidate := some ⟨tokens.length, m, indents.head? == some m.column⟩ }

theorem markOf_noted {key : List Char} : markOf (noted m key rest tokens indents).finish
    (noted m key rest tokens indents).rest = m.over key := markOf_place

theorem noted_in_reach {key : List Char} (hkey : IsName key) :
    ∀ c ∈ (noted m key rest tokens indents).candidate,
      c.isStale (markOf (noted m key rest tokens indents).finish
        (noted m key rest tokens indents).rest) = false := by
  intro c hc
  cases hc
  have hline : OneLine key := (PlainFrom.of_canBePlain hkey.plain).oneLine
  have hindex := Mark.index_over m key
  have hshort := hkey.short
  rw [markOf_noted, Candidate.isStale, (Mark.over_oneLine hline).1, hindex]
  simp [hshort]

@[simp] theorem here_facing : (facing m cs tokens indents keyAllowed).here = m := markOf_place

theorem noteCandidate_facing :
    (facing m cs tokens indents true).noteCandidate =
      .ok { facing m cs tokens indents true with
        candidate := some ⟨tokens.length, m, indents.head? == some m.column⟩ } := by
  rw [noteCandidate, here_facing]
  rfl

theorem takePlain_eq {mark : Mark} {t : PlainText} (hnote : s.noteCandidate = .ok s')
    (hread : readPlain ⟨s'.inFlow, s'.margin⟩ mark .none s'.rest = .ok t) :
    s.takePlain mark = .ok { s'.add (.scalar .plain (String.ofList t.text)) mark with
      rest := t.rest, keyAllowed := t.endsLine } := by
  rw [takePlain, hnote]
  simp only [bind, Except.bind]
  rw [hread]
  rfl

theorem step_key {key : List Char} (hkey : IsName key) (hrest : Written.atGap rest = true)
    (h : s.approach = .ok (facing m (key ++ ':' :: rest) tokens indents true)) :
    s.step = .ok (noted m key rest tokens indents) := by
  have hread : readPlain ⟨false, (facing m (key ++ ':' :: rest) tokens indents true).margin⟩ m .none
      (place m (key ++ ':' :: rest)) = .ok ⟨key, false, place (m.over key) (':' :: rest)⟩ :=
    readPlain_key rfl (.of_canBePlain hkey.plain) hkey.head hrest
  have htake : (facing m (key ++ ':' :: rest) tokens indents true).takePlain m =
      .ok (noted m key rest tokens indents) := by
    rw [takePlain_eq noteCandidate_facing hread, noted, facing, facing, add, Mark.over_append]
  obtain ⟨c, cs, rfl⟩ := List.exists_cons_of_ne_nil hkey.nonempty
  obtain ⟨hstart, hindicator⟩ := isStart_of_canBePlain hkey.plain
  have hrest : (facing m (c :: cs ++ ':' :: rest) tokens indents true).rest =
      ⟨c, m⟩ :: place (m.behind c) (cs ++ ':' :: rest) := rfl
  refine step_eq h rfl hrest ?_ rfl (expire_eq (noted_in_reach hkey) rfl)
  rw [takeToken_plain hindicator hstart.no_blank (.inr (hkey.head c rfl)) rfl rfl]
  · exact htake
  · cases cs with
    | nil => exact fun _ => rfl
    | cons d ds => exact id

/-- The blocks in which a column lies. -/
def within (indents : List Nat) (column : Nat) : List Nat := indents.dropWhile (column < ·)

/-- The signs of the blocks that end in front of a column. -/
def ends (indents : List Nat) (column : Nat) : List Sign :=
  (indents.takeWhile (column < ·)).map fun _ => .blockEnd

/-- The blocks that are open behind a key at a column. -/
def entered (indents : List Nat) (column : Nat) : List Nat :=
  if indents.head? = some column then indents else column :: indents

/-- The sign of a block that is opened at a column. -/
def opening (sign : Sign) (indents : List Nat) (column : Nat) : List Sign :=
  if indents.head? = some column then [] else [sign]

/-- What ends in front of a column, and the block that is opened there. -/
def arrive (sign : Sign) (indents : List Nat) (column : Nat) : List Sign :=
  ends indents column ++ opening sign (within indents column) column

theorem head_within (indents : List Nat) (column : Nat) :
    ∀ c ∈ (within indents column).head?, c ≤ column := by
  intro c hmem
  have hnot := List.head?_dropWhile_not (column < ·) indents
  rw [show (indents.dropWhile (column < ·)).head? = some c from hmem] at hnot
  exact Nat.not_lt.1 (of_decide_eq_false hnot)

theorem insertIdx_length_append {α : Type} (xs ys : List α) (a : α) :
    (xs ++ ys).insertIdx xs.length a = xs ++ a :: ys := by
  induction xs with
  | nil => rfl
  | cons x xs ih => rw [List.cons_append, List.length_cons, List.insertIdx_succ_cons, ih,
      List.cons_append]

/-- A block is opened at a place unless it is open there already. -/
theorem openBlock_eq (houter : s.outer = []) {mark : Mark}
    (hindents : ∀ column ∈ s.indents.head?, column ≤ mark.column) (sign : Sign)
    {before behind : List Token} (htokens : s.tokens = before ++ behind) :
    s.openBlock sign mark before.length =
      { s with
        indents := entered s.indents mark.column
        tokens := before ++ ((opening sign s.indents mark.column).map (⟨·, mark⟩) ++ behind) } := by
  have hopens : s.opensBlock mark.column = true ↔ s.indents.head? ≠ some mark.column := by
    have hflow : s.inFlow = false := by rw [inFlow, houter]; rfl
    rw [opensBlock, hflow, margin]
    cases h : s.indents with
    | nil => simp
    | cons column outer =>
      have hle := hindents column (by rw [h]; rfl)
      simp
      omega
  rw [openBlock, entered, opening]
  by_cases h : s.indents.head? = some mark.column
  · rw [if_neg (fun ho => hopens.1 ho h), if_pos h, if_pos h, List.map_nil, List.nil_append,
      ← htokens]
  · rw [if_pos (hopens.2 h), if_neg h, if_neg h, htokens, insertIdx_length_append]
    rfl

theorem takeColon_eq {mark : Mark} {after : List Placed} {c : Candidate}
    (hcandidate : s.candidate = some c)
    (hopen : openBlock { s with
        tokens := s.tokens.insertIdx c.place ⟨.key, c.mark⟩, candidate := none }
      .blockMapping c.mark c.place = s') :
    s.takeColon mark after =
      .ok { s'.add .colon mark with rest := after, keyAllowed := false } := by
  rw [takeColon, hcandidate]
  simp only
  rw [hopen]

theorem step_colon {key : List Char} (hkey : IsName key) (hrest : Written.atGap rest = true)
    (hindents : ∀ column ∈ indents.head?, column ≤ m.column) :
    (noted m key rest tokens indents).step =
      .ok (facing (m.over (key ++ [':'])) rest
        (tokens ++ ((opening .blockMapping indents m.column).map (⟨·, m⟩) ++
          [⟨.key, m⟩, ⟨.scalar .plain (String.ofList key), m⟩, ⟨.colon, m.over key⟩]))
        (entered indents m.column) false) := by
  have hcolumn : m.column ≤ (m.over key).column := by
    rw [Mark.column_over (PlainFrom.of_canBePlain hkey.plain).oneLine]
    exact Nat.le_add_right _ _
  have hgap : skipGap false false false (place (m.over key) (':' :: rest)) =
      (place (m.over key) (':' :: rest), false) := by
    simp [skipGap, isBreak, byteOrderMark]
  have happroach : (noted m key rest tokens indents).approach =
      .ok (noted m key rest tokens indents) := by
    refine approach_within (s := noted m key rest tokens indents) hgap rfl (noted_in_reach hkey) ?_
    intro column hmem
    exact le_of_le_of_eq (Nat.le_trans (hindents column hmem) hcolumn)
      (congrArg Mark.column markOf_noted.symm)
  have hafter : Yaml.atGap (place ((m.over key).behind ':') rest) = true := by
    rw [atGap_place, hrest]
  have hhere : (noted m key rest tokens indents).rest =
      ⟨':', m.over key⟩ :: place ((m.over key).behind ':') rest := rfl
  refine step_eq happroach rfl hhere ?_ rfl (expire_of_none rfl rfl)
  have htake : (noted m key rest tokens indents).takeToken (m.over key)
      (place ((m.over key).behind ':') rest) ':' =
      (noted m key rest tokens indents).takeColon (m.over key)
        (place ((m.over key).behind ':') rest) := by
    simp [takeToken, noted, facing, atTriple_eq_false, hafter]
  have hopen : openBlock { noted m key rest tokens indents with
      tokens := (noted m key rest tokens indents).tokens.insertIdx tokens.length ⟨.key, m⟩
      candidate := none } .blockMapping m tokens.length =
      facing (m.over key) (':' :: rest)
        (tokens ++ ((opening .blockMapping indents m.column).map (⟨·, m⟩) ++
          [⟨.key, m⟩, ⟨.scalar .plain (String.ofList key), m⟩]))
        (entered indents m.column) false := by
    have hinsert : (noted m key rest tokens indents).tokens.insertIdx tokens.length ⟨.key, m⟩ =
        tokens ++ [⟨.key, m⟩, ⟨.scalar .plain (String.ofList key), m⟩] :=
      insertIdx_length_append tokens _ _
    rw [hinsert]
    exact openBlock_eq rfl hindents .blockMapping rfl
  rw [htake, takeColon_eq rfl hopen]
  simp [facing, add]

/-- A key and its colon. -/
theorem Arrives.run_key {key : List Char} (hkey : IsName key) (hrest : Written.atGap rest = true)
    (h : s.Arrives m (key ++ ':' :: rest) indents) :
    ∃ tokens, s.Leads (arrive .blockMapping indents m.column ++
        [.key, .scalar .plain (String.ofList key), .colon])
      (facing (m.over (key ++ [':'])) rest tokens (entered (within indents m.column) m.column)
        false) := by
  have hlt : (place (m.over key) (':' :: rest)).length < s.rest.length := by
    have hle := h.length_le
    have hpos := List.length_pos_iff.2 hkey.nonempty
    simp only [length_place, List.length_append, List.length_cons] at hle ⊢
    omega
  have hnoted := run_eq_of_step (step_key hkey hrest h.approach) hlt (by simp [noted, facing])
  have hfacing : ∀ before, (noted m key rest before (within indents m.column)).run = _ := fun _ =>
    run_eq_of_step (step_colon hkey hrest (head_within indents m.column)) (by simp [noted, facing])
      (by simp [facing])
  refine ⟨_, hnoted.trans (hfacing _), ?_⟩
  simp [facing, arrive, ends, Function.comp_def]

/-! ## A dash -/

theorem takeDash_eq {mark : Mark} {after : List Placed} (houter : s.outer = [])
    (hkey : s.keyAllowed = true)
    (hopen : s.openBlock .blockSequence mark s.tokens.length = s')
    (hcandidate : s'.candidate = none) :
    s.takeDash mark after = .ok { s'.add .dash mark with rest := after, keyAllowed := true } := by
  have hfor : s.openFor mark .blockSequence .sequenceNotAllowed = .ok s' := by
    rw [openFor, inFlow, houter, hkey, hopen]
    rfl
  rw [takeDash, hfor]
  simp only [bind, Except.bind]
  rw [dropCandidate, hcandidate]
  rfl

/-- A dash and the space behind it. -/
theorem Arrives.run_dash (hword : IsWord word) (h : s.Arrives m ('-' :: ' ' :: word) indents) :
    ∃ s', s.Leads (arrive .blockSequence indents m.column ++ [.dash]) s' ∧
      s'.Arrives (m.over ['-', ' ']) word (entered (within indents m.column) m.column) := by
  have hsecond : ∀ d p q (rest : List Placed), q.char ≠ d →
      atTriple d (p :: q :: rest) = false := by
    intro d p q rest hq
    cases rest <;> simp [atTriple, hq]
  have htake : ∀ s : Lexing, s.rest = place m ('-' :: ' ' :: word) →
      s.takeToken m (place (m.behind '-') (' ' :: word)) '-' =
        s.takeDash m (place (m.behind '-') (' ' :: word)) := by
    intro s hs
    simp [takeToken, hs, hsecond, Yaml.atGap, isBlank]
  generalize hbefore : s.tokens ++ (indents.takeWhile (m.column < ·)).map
    (fun _ => Token.mk .blockEnd m) = before
  have happroach := h.approach
  rw [hbefore] at happroach
  have hopen : (facing m ('-' :: ' ' :: word) before (within indents m.column) true).openBlock
      .blockSequence m before.length = _ :=
    openBlock_eq rfl (head_within indents m.column) .blockSequence (List.append_nil before).symm
  have hdash := (htake _ rfl).trans (takeDash_eq rfl rfl hopen rfl)
  have hhere : (facing m ('-' :: ' ' :: word) before (within indents m.column) true).rest =
      ⟨'-', m⟩ :: place (m.behind '-') (' ' :: word) := rfl
  have hstep := step_eq happroach rfl hhere hdash rfl (expire_of_none rfl rfl)
  have hlt : (place (m.behind '-') (' ' :: word)).length < s.rest.length := by
    have hle := h.length_le
    simp only [length_place, List.length_cons] at hle ⊢
    omega
  refine ⟨_, ⟨run_eq_of_step hstep hlt (by simp [add]), ?_⟩, ?_, ?_, rfl, rfl, rfl, rfl⟩
  · simp [facing, add, ← hbefore, arrive, ends, Function.comp_def]
  · rw [place_cons, skipGap]
    simpa [isBreak] using skipGap_word hword true
  · simp [facing, add]

end Lexing

end PageMend.Yaml
