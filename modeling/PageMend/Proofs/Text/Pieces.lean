import PageMend.Proofs.Text.Replace

/-!
# What is left when a pattern is taken out of a text

A pattern cuts a text into pieces: those in front of, between and behind its occurrences
(`Text.pieces`). With the pattern between them they are the text (`intercalate_pieces`); without it
they are what a replacement leaves (`flatten_pieces`).

No piece holds the pattern (`not_occursIn_of_mem_pieces`). So where the pattern stands in what is
left, it does so across a joint of the pieces (`occursIn_replaceAll_iff`). A pattern that is one
character over and over never does (`not_occursIn_replaceAll`); each other pattern does in some text
(`exists_replaceAll_eq_self`).
-/

namespace PageMend.Text

/-- The pieces of a text in front of, between and behind the occurrences of a pattern. -/
def pieces (pattern : List Char) : List Char → List (List Char)
  | [] => [[]]
  | c :: cs =>
    if pattern ≠ [] ∧ pattern.isPrefixOf (c :: cs) then
      [] :: pieces pattern ((c :: cs).drop pattern.length)
    else
      (pieces pattern cs).modifyHead (c :: ·)
termination_by cs => cs.length
decreasing_by
  · rename_i h
    have := List.length_pos_iff.2 h.1
    simp only [List.length_drop, List.length_cons]
    omega
  · simp

section
variable {pattern : List Char}

/-- There is a first piece, and the text starts with it. -/
theorem exists_pieces_eq_cons (pattern text : List Char) :
    ∃ first rest, pieces pattern text = first :: rest ∧ first <+: text := by
  fun_induction pieces pattern text with
  | case1 => exact ⟨[], [], rfl, List.nil_prefix⟩
  | case2 c cs _ _ => exact ⟨[], _, rfl, List.nil_prefix⟩
  | case3 c cs _ ih =>
    obtain ⟨first, rest, hpieces, hfirst⟩ := ih
    refine ⟨c :: first, rest, by rw [hpieces]; rfl, ?_⟩
    exact List.cons_prefix_cons.2 ⟨rfl, hfirst⟩

/-- The pieces make up what a replacement leaves. -/
theorem flatten_pieces (pattern text : List Char) :
    (pieces pattern text).flatten = replaceAll pattern [] text := by
  fun_induction pieces pattern text with
  | case1 => rw [replaceAll]; rfl
  | case2 c cs hhit ih =>
    rw [replaceAll, if_pos hhit, List.flatten_cons, ih]
  | case3 c cs hmiss ih =>
    obtain ⟨first, rest, hpieces, -⟩ := exists_pieces_eq_cons pattern cs
    rw [replaceAll, if_neg hmiss, ← ih, hpieces]
    rfl

/-- With the pattern between them, the pieces are the text. -/
theorem intercalate_pieces (pattern text : List Char) :
    pattern.intercalate (pieces pattern text) = text := by
  fun_induction pieces pattern text with
  | case1 => rfl
  | case2 c cs hhit ih =>
    obtain ⟨rest, hrest⟩ := List.isPrefixOf_iff_prefix.1 hhit.2
    obtain ⟨first, others, hpieces, -⟩ :=
      exists_pieces_eq_cons pattern ((c :: cs).drop pattern.length)
    rw [hpieces] at ih ⊢
    rw [List.intercalate_cons_cons, ih, ← hrest, List.drop_left, List.nil_append]
  | case3 c cs _ ih =>
    obtain ⟨first, rest, hpieces, -⟩ := exists_pieces_eq_cons pattern cs
    rw [hpieces] at ih ⊢
    rw [← ih]
    cases rest with
    | nil => simp
    | cons next rest => simp [List.intercalate_cons_cons]

/-- No piece holds the pattern. -/
theorem not_occursIn_of_mem_pieces (hne : pattern ≠ []) {text piece : List Char}
    (h : piece ∈ pieces pattern text) : occursIn pattern piece = false := by
  have hempty : occursIn pattern [] = false := by
    rw [occursIn]
    exact List.isEmpty_eq_false_iff.2 hne
  fun_induction pieces pattern text generalizing piece with
  | case1 => rwa [List.mem_singleton.1 h]
  | case2 c cs _ ih =>
    rcases List.mem_cons.1 h with rfl | h
    · exact hempty
    · exact ih h
  | case3 c cs hmiss ih =>
    obtain ⟨first, rest, hpieces, hfirst⟩ := exists_pieces_eq_cons pattern cs
    rw [hpieces] at h ih
    rcases List.mem_cons.1 h with rfl | h
    · -- the pattern does not stand at the start, so neither does it in front of the next occurrence
      have hhead : pattern.isPrefixOf (c :: first) = false := by
        refine Bool.eq_false_iff.2 fun hp => hmiss ⟨hne, ?_⟩
        have hwhole : c :: first <+: c :: cs := List.cons_prefix_cons.2 ⟨rfl, hfirst⟩
        exact List.isPrefixOf_iff_prefix.2 ((List.isPrefixOf_iff_prefix.1 hp).trans hwhole)
      rw [occursIn, hhead, ih List.mem_cons_self]
      rfl
    · exact ih (List.mem_cons_of_mem _ h)

/-! ## Joints -/

/-- Whether a pattern that is taken out of a text stands in what is left: it starts in front of a
joint of the pieces and ends behind it. -/
def Rejoins (pattern text : List Char) : Prop :=
  ∃ front back left right, pieces pattern text = front ++ back ∧ pattern = left ++ right ∧
    left ≠ [] ∧ right ≠ [] ∧ left <:+ front.flatten ∧ right <+: back.flatten

/-- What stands in the join of texts, but in none of them, stands across a joint. -/
theorem exists_joint {texts : List (List Char)} {before after : List Char} (hne : pattern ≠ [])
    (hnone : ∀ text ∈ texts, ¬ pattern <:+: text)
    (h : texts.flatten = before ++ pattern ++ after) :
    ∃ front back left right, texts = front ++ back ∧ pattern = left ++ right ∧
      left ≠ [] ∧ right ≠ [] ∧ left <:+ front.flatten ∧ right <+: back.flatten := by
  induction texts generalizing before with
  | nil => simp [hne] at h
  | cons text texts ih =>
    obtain ⟨hnot, hnone⟩ := List.forall_mem_cons.1 hnone
    have hlater : ∀ before, texts.flatten = before ++ pattern ++ after →
        ∃ front back left right, text :: texts = front ++ back ∧ pattern = left ++ right ∧
          left ≠ [] ∧ right ≠ [] ∧ left <:+ front.flatten ∧ right <+: back.flatten := by
      intro before hrest
      obtain ⟨front, back, left, right, rfl, hpattern, hl, hr, hleft, hright⟩ := ih hnone hrest
      refine ⟨text :: front, back, left, right, rfl, hpattern, hl, hr, ?_, hright⟩
      rw [List.flatten_cons]
      exact hleft.trans (List.suffix_append _ _)
    rw [List.flatten_cons, List.append_assoc, List.append_eq_append_iff] at h
    rcases h with ⟨more, rfl, hrest⟩ | ⟨left, rfl, hrest⟩
    · -- the pattern starts behind the first text
      exact hlater more (by rw [hrest, List.append_assoc])
    · rw [List.append_eq_append_iff] at hrest
      rcases hrest with ⟨more, rfl, -⟩ | ⟨right, rfl, hrest⟩
      · exact absurd ⟨before, more, by simp⟩ hnot
      · by_cases hl : left = []
        · subst hl
          exact hlater [] (by simpa using hrest)
        · by_cases hr : right = []
          · subst hr
            exact absurd ⟨before, [], by simp⟩ hnot
          · refine ⟨[before ++ left], texts, left, right, rfl, rfl, hl, hr, ?_, ?_⟩
            · simp
            · exact ⟨after, hrest.symm⟩

/-- A pattern that is taken out of a text stands in what is left just across a joint. -/
theorem occursIn_replaceAll_iff (hne : pattern ≠ []) (text : List Char) :
    occursIn pattern (replaceAll pattern [] text) = true ↔ Rejoins pattern text := by
  rw [occursIn_iff, ← flatten_pieces]
  constructor
  · rintro ⟨before, after, h⟩
    refine exists_joint hne (fun piece hpiece hin => ?_) h.symm
    rw [← occursIn_iff, not_occursIn_of_mem_pieces hne hpiece] at hin
    cases hin
  · rintro ⟨front, back, left, right, hpieces, hpattern, -, -, ⟨before, hleft⟩, ⟨after, hright⟩⟩
    refine ⟨before, after, ?_⟩
    rw [hpieces, List.flatten_append, ← hleft, ← hright, hpattern]
    simp only [List.append_assoc]

/-- Whether a pattern comes back can be found out by taking it out. -/
instance (pattern text : List Char) : Decidable (Rejoins pattern text) :=
  if h : pattern = [] then
    .isFalse fun ⟨_, _, _, _, _, hpattern, hleft, _⟩ =>
      hleft (List.append_eq_nil_iff.1 (hpattern.symm.trans h)).1
  else decidable_of_iff _ (occursIn_replaceAll_iff h text)

example : Rejoins "ab".toList "aabb".toList ∧ ¬ Rejoins "ab".toList "abba".toList := by
  decide +kernel

/-! ## Patterns that never come back -/

/-- What is left starts with no more of the same character than the text. -/
theorem replicate_prefix_of_replaceAll {c : Char} (hall : ∀ d ∈ pattern, d = c) {n : Nat}
    (hn : n ≤ pattern.length) {text : List Char}
    (h : List.replicate n c <+: replaceAll pattern [] text) : List.replicate n c <+: text := by
  fun_induction replaceAll pattern [] text generalizing n with
  | case1 => exact h
  | case2 d cs hhit _ =>
    have hstart : List.replicate n c <+: pattern := by
      rw [List.eq_replicate_iff.2 ⟨rfl, hall⟩]
      exact List.prefix_replicate_iff.2 ⟨by simpa using hn, by simp⟩
    exact hstart.trans (List.isPrefixOf_iff_prefix.1 hhit.2)
  | case3 d cs _ ih =>
    cases n with
    | zero => exact List.nil_prefix
    | succ n =>
      obtain ⟨rfl, hrest⟩ := List.cons_prefix_cons.1 h
      exact List.cons_prefix_cons.2 ⟨rfl, ih (Nat.le_of_succ_le hn) hrest⟩

/-- A pattern of one character does not stand in what is left. -/
theorem not_occursIn_replaceAll (hne : pattern ≠ []) {c : Char} (hall : ∀ d ∈ pattern, d = c)
    (text : List Char) : occursIn pattern (replaceAll pattern [] text) = false := by
  have hsame : pattern = List.replicate pattern.length c := List.eq_replicate_iff.2 ⟨rfl, hall⟩
  fun_induction replaceAll pattern [] text with
  | case1 =>
    rw [occursIn]
    exact List.isEmpty_eq_false_iff.2 hne
  | case2 d cs _ ih => exact ih
  | case3 d cs hmiss ih =>
    rw [occursIn, ih, Bool.or_false]
    refine Bool.eq_false_iff.2 fun hp => hmiss ⟨hne, ?_⟩
    have hp : pattern <+: replaceAll pattern [] (d :: cs) := by
      rw [replaceAll, if_neg hmiss]
      exact List.isPrefixOf_iff_prefix.1 hp
    have hstart : List.replicate pattern.length c <+: d :: cs :=
      replicate_prefix_of_replaceAll hall (Nat.le_refl _) (by rwa [← hsame])
    rw [← hsame] at hstart
    exact List.isPrefixOf_iff_prefix.2 hstart

/-- What starts with itself one place later is one character over and over. -/
theorem eq_of_prefix_cons {c : Char} {cs more : List Char} (h : cs <+: c :: (cs ++ more)) :
    ∀ d ∈ cs, d = c := by
  induction cs with
  | nil => simp
  | cons d ds ih =>
    obtain ⟨rfl, hrest⟩ := List.cons_prefix_cons.1 h
    exact List.forall_mem_cons.2 ⟨rfl, ih hrest⟩

/-- Any other pattern comes back when its first character stands in front of it and the others
behind it. -/
theorem replaceAll_overlap {c : Char} {cs : List Char} (h : ¬ ∀ d ∈ cs, d = c) :
    replaceAll (c :: cs) [] (c :: (c :: cs ++ cs)) = c :: cs := by
  have hmiss : ¬ ((c :: cs).isPrefixOf (c :: (c :: cs ++ cs)) = true) := fun hp =>
    h (eq_of_prefix_cons (List.cons_prefix_cons.1 (List.isPrefixOf_iff_prefix.1 hp)).2)
  have hshort : occursIn (c :: cs) cs = false := by
    refine Bool.eq_false_iff.2 fun hin => ?_
    have hle := (occursIn_iff.1 hin).length_le
    rw [List.length_cons] at hle
    omega
  rw [replaceAll, if_neg fun hp => hmiss hp.2, replaceAll_append (List.cons_ne_nil c cs),
    List.nil_append, replaceAll_of_not_occursIn _ hshort]

/-- A pattern of several characters comes back from a text of the same characters. -/
theorem exists_replaceAll_eq_self (hne : pattern ≠ []) (h : ¬ ∃ c, ∀ d ∈ pattern, d = c) :
    ∃ text, (∀ c ∈ text, c ∈ pattern) ∧ occursIn pattern text = true ∧
      replaceAll pattern [] text = pattern := by
  obtain ⟨c, cs, rfl⟩ := List.exists_cons_of_ne_nil hne
  have hcs : ¬ ∀ d ∈ cs, d = c := fun hcs => h ⟨c, List.forall_mem_cons.2 ⟨rfl, hcs⟩⟩
  refine ⟨c :: (c :: cs ++ cs), fun d hd => ?_, occursIn_iff.2 ⟨[c], cs, rfl⟩,
    replaceAll_overlap hcs⟩
  simp only [List.mem_cons, List.mem_append] at hd ⊢
  grind

end

end PageMend.Text
