import PageMend.Text.Search

/-!
# What a replacement leaves in a text

A replacement brings in no character but those of the new text (`mem_replaceAll`). A pattern that
does not stand in a text, or that is empty, leaves it as it is.

Which occurrences are replaced is said by `Replaced`: the first one from the left, then the first
one behind it, and so on. A replacement does just that (`replaced_iff`), and so it changes each text
in which the pattern stands, unless the pattern is replaced by itself (`Replaced.eq_iff`).
-/

namespace PageMend.Text

/-- A character behind a replacement is one of the text or of what was put in. -/
theorem mem_replaceAll {pattern replacement text : List Char} {c : Char}
    (h : c ∈ replaceAll pattern replacement text) : c ∈ replacement ∨ c ∈ text := by
  fun_induction replaceAll pattern replacement text with
  | case1 => cases h
  | case2 d cs _ ih =>
    rcases List.mem_append.1 h with h | h
    · exact .inl h
    · exact (ih h).imp_right fun h => (List.drop_subset _ _) h
  | case3 d cs _ ih =>
    rcases List.mem_cons.1 h with rfl | h
    · exact .inr List.mem_cons_self
    · exact (ih h).imp_right (List.mem_cons_of_mem d)

/-- The empty pattern replaces nothing. -/
theorem replaceAll_nil (replacement text : List Char) : replaceAll [] replacement text = text := by
  induction text with
  | nil => rw [replaceAll]
  | cons c cs ih => rw [replaceAll, if_neg fun h => h.1 rfl, ih]

/-- An occurrence at the start is replaced, and the search goes on behind it. -/
theorem replaceAll_append {pattern : List Char} (h : pattern ≠ []) (replacement rest : List Char) :
    replaceAll pattern replacement (pattern ++ rest) =
      replacement ++ replaceAll pattern replacement rest := by
  obtain ⟨c, cs, rfl⟩ := List.exists_cons_of_ne_nil h
  have hhit : (c :: cs).isPrefixOf (c :: (cs ++ rest)) = true :=
    List.isPrefixOf_iff_prefix.2 (List.prefix_append (c :: cs) rest)
  have hdrop : (c :: (cs ++ rest)).drop (c :: cs).length = rest := List.drop_left
  rw [List.cons_append, replaceAll, if_pos ⟨h, hhit⟩, hdrop]

/-- Taking a pattern out of a text brings nothing in. -/
theorem replaceAll_sublist (pattern text : List Char) :
    (replaceAll pattern [] text).Sublist text := by
  fun_induction replaceAll pattern [] text with
  | case1 => exact List.Sublist.refl _
  | case2 d cs _ ih => exact ih.trans (List.drop_sublist _ _)
  | case3 d cs _ ih => exact ih.cons_cons d

/-! ### Which occurrences are replaced -/

/-- From left to right, each occurrence of the pattern behind the one before is replaced. An
occurrence is the first one if the pattern does not stand in what ends one character earlier. -/
inductive Replaced (pattern replacement : List Char) : List Char → List Char → Prop
  | none {text} (hnot : ¬pattern <:+: text) : Replaced pattern replacement text text
  | next {rest out} (before : List Char) (hfirst : ¬pattern <:+: (before ++ pattern).dropLast)
      (h : Replaced pattern replacement rest out) :
      Replaced pattern replacement (before ++ pattern ++ rest) (before ++ replacement ++ out)

section
variable {pattern replacement text out : List Char}

theorem Replaced.cons (hne : pattern ≠ []) {c : Char} (hmiss : ¬pattern <+: c :: text)
    (h : Replaced pattern replacement text out) :
    Replaced pattern replacement (c :: text) (c :: out) := by
  cases h with
  | none hnot => exact .none fun hin => (List.infix_cons_iff.1 hin).elim hmiss hnot
  | @next rest out before hfirst h =>
    refine .next (c :: before) (fun hin => ?_) h
    have hback : before ++ pattern ≠ [] := List.append_ne_nil_of_right_ne_nil _ hne
    rw [List.cons_append, List.dropLast_cons_of_ne_nil hback, List.infix_cons_iff] at hin
    refine hin.elim (fun hp => hmiss (hp.trans (List.cons_prefix_cons.2 ⟨rfl, ?_⟩))) hfirst
    exact (List.dropLast_prefix _).trans (List.prefix_append _ _)

theorem replaced_replaceAll (hne : pattern ≠ []) (replacement text : List Char) :
    Replaced pattern replacement text (replaceAll pattern replacement text) := by
  fun_induction replaceAll pattern replacement text with
  | case1 => exact .none fun hin => hne (List.infix_nil.1 hin)
  | case2 c cs hhit ih =>
    obtain ⟨rest, hrest⟩ := List.isPrefixOf_iff_prefix.1 hhit.2
    rw [← hrest, List.drop_left] at ih ⊢
    refine .next [] (fun hin => ?_) ih
    have hlt := hin.length_le
    have hpos := List.length_pos_iff.2 hne
    rw [List.nil_append, List.length_dropLast] at hlt
    omega
  | case3 c cs hmiss ih =>
    exact ih.cons hne fun hp => hmiss ⟨hne, List.isPrefixOf_iff_prefix.2 hp⟩

/-- Two first occurrences are the same. -/
theorem length_le_of_first {before before' rest rest' : List Char}
    (h : before ++ pattern ++ rest = before' ++ pattern ++ rest')
    (hfirst : ¬pattern <:+: (before' ++ pattern).dropLast) : before'.length ≤ before.length := by
  refine Nat.le_of_not_lt fun hlt => hfirst ?_
  have hprefix : before ++ pattern <+: (before' ++ pattern).dropLast := by
    refine List.prefix_of_prefix_length_le (List.prefix_append _ rest) ?_ ?_
    · rw [h]
      exact (List.dropLast_prefix _).trans (List.prefix_append _ _)
    · simp only [List.length_dropLast, List.length_append]
      omega
  exact (List.suffix_append before pattern).isInfix.trans hprefix.isInfix

theorem Replaced.unique {out' : List Char} (h : Replaced pattern replacement text out)
    (h' : Replaced pattern replacement text out') : out = out' := by
  induction h generalizing out' with
  | none hnot =>
    cases h' with
    | none => rfl
    | next before => exact absurd ⟨before, _, rfl⟩ hnot
  | @next rest out before hfirst _ ih =>
    generalize htext : before ++ pattern ++ rest = text at h'
    cases h' with
    | none hnot => exact absurd ⟨before, rest, htext⟩ hnot
    | next before' hfirst' h' =>
      have hlength : before.length = before'.length :=
        Nat.le_antisymm (length_le_of_first htext.symm hfirst) (length_le_of_first htext hfirst')
      rw [List.append_assoc, List.append_assoc] at htext
      obtain ⟨rfl, hrest⟩ := List.append_inj htext hlength
      rw [ih (List.append_cancel_left hrest ▸ h')]

/-- What is left is what the occurrences, found one behind the other, leave. -/
theorem replaced_iff (hne : pattern ≠ []) :
    Replaced pattern replacement text out ↔ replaceAll pattern replacement text = out :=
  ⟨(replaced_replaceAll hne replacement text).unique, fun h => h ▸ replaced_replaceAll hne _ _⟩

/-- Each of the occurrences makes the text longer or shorter by the same number. -/
theorem Replaced.exists_length (h : Replaced pattern replacement text out) :
    ∃ count, out.length + count * pattern.length = text.length + count * replacement.length := by
  induction h with
  | none => exact ⟨0, by simp⟩
  | @next rest out before _ _ ih =>
    obtain ⟨count, ih⟩ := ih
    refine ⟨count + 1, ?_⟩
    simp only [List.length_append, Nat.add_mul, Nat.one_mul]
    omega

/-- A text in which the pattern stands is changed: were it not, pattern and replacement would be of
one length, and so the same at the first occurrence. -/
theorem Replaced.eq_iff (h : Replaced pattern replacement text out) (hne : pattern ≠ replacement) :
    out = text ↔ ¬pattern <:+: text := by
  cases h with
  | none hnot => exact ⟨fun _ => hnot, fun _ => rfl⟩
  | @next rest out before _ h =>
    refine ⟨fun heq => absurd ?_ hne, fun hnot => absurd ⟨before, rest, rfl⟩ hnot⟩
    rw [List.append_assoc, List.append_assoc] at heq
    have hbehind : replacement ++ out = pattern ++ rest := List.append_cancel_left heq
    obtain ⟨count, hcount⟩ := h.exists_length
    have hlength : (count + 1) * pattern.length = (count + 1) * replacement.length := by
      have hsum := congrArg List.length hbehind
      simp only [List.length_append] at hsum
      rw [Nat.add_mul, Nat.add_mul]
      omega
    exact (List.append_inj hbehind (Nat.eq_of_mul_eq_mul_left (Nat.succ_pos _) hlength).symm).1.symm

end

end PageMend.Text

theorem String.replaceEach_empty (s replacement : String) : s.replaceEach "" replacement = s := by
  rw [String.replaceEach, String.toList_empty, PageMend.Text.replaceAll_nil, String.ofList_toList]

theorem String.replaceEach_of_not_hasInfix {s pattern : String} (replacement : String)
    (h : s.hasInfix pattern = false) : s.replaceEach pattern replacement = s := by
  rw [String.replaceEach, PageMend.Text.replaceAll_of_not_occursIn _ h, String.ofList_toList]

theorem String.toList_replaceEach_empty (s pattern : String) :
    (s.replaceEach pattern "").toList =
      PageMend.Text.replaceAll pattern.toList [] s.toList := by
  rw [String.replaceEach, String.toList_ofList, String.toList_empty]

/-- Taking a pattern out of a string brings in no character. -/
theorem String.mem_replaceEach_empty {s pattern : String} {c : Char}
    (h : c ∈ (s.replaceEach pattern "").toList) : c ∈ s.toList := by
  rw [String.toList_replaceEach_empty] at h
  exact (PageMend.Text.mem_replaceAll h).resolve_left fun hc => nomatch hc

theorem String.replaceEach_eq_iff {s pattern out : String} (replacement : String)
    (hne : pattern ≠ "") :
    s.replaceEach pattern replacement = out ↔
      PageMend.Text.Replaced pattern.toList replacement.toList s.toList out.toList := by
  rw [PageMend.Text.replaced_iff (mt String.toList_eq_nil_iff.1 hne), String.replaceEach,
    ← String.toList_inj, String.toList_ofList]

/-- A string in which the pattern stands is changed. -/
theorem String.replaceEach_ne_self {s pattern replacement : String} (hne : pattern ≠ "")
    (hother : pattern ≠ replacement) (h : s.hasInfix pattern = true) :
    s.replaceEach pattern replacement ≠ s := by
  intro heq
  have hreplaced := (String.replaceEach_eq_iff replacement hne).1 heq
  exact (hreplaced.eq_iff fun he => hother (String.toList_injective he)).1 rfl
    (PageMend.Text.occursIn_iff.1 h)
