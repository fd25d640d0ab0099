import Mathlib.Data.List.Basic
import PageMend.Yaml.Written

/-!
# Printable texts at their places

In a text that is printable, each character stands as itself: no line break is respelled and no
character is refused (`ofChars_of_printable`, `firstForbidden?_of_printable`). `place m cs` are the
characters at their places from `m` on, and `m.over cs` is the place behind them; both go along with
`++`, so that a text can be followed piece by piece.
-/

namespace PageMend.Yaml

open Written

/-! ## Printable characters -/

theorem isAllowed_of_printable {c : Char} (h : isPrintable c = true) : isAllowed c = true := by
  simp only [isPrintable, Bool.or_eq_true, beq_iff_eq, Bool.and_eq_true] at h
  rcases h with rfl | h
  · rfl
  · exact h.1.1.1.1

/-- The characters that are not printable though a text may hold them. -/
theorem ne_of_printable {c : Char} (h : isPrintable c = true) :
    c ≠ '\t' ∧ c ≠ '\r' ∧ c ≠ '\u0085' ∧ c ≠ byteOrderMark := by
  refine ⟨?_, ?_, ?_, ?_⟩ <;> rintro rfl <;> exact nomatch h

/-- The space is the only blank that is printable. -/
theorem isBlank_iff_of_printable {c : Char} (h : isPrintable c = true) :
    isBlank c = true ↔ c = ' ' := by
  rw [isBlank, Bool.or_eq_true, beq_iff_eq, beq_iff_eq]
  exact or_iff_left (ne_of_printable h).1

theorem not_isBreak_of_isBlank {c : Char} (h : isBlank c = true) : isBreak c = false := by
  simp only [isBlank, Bool.or_eq_true, beq_iff_eq] at h
  rcases h with rfl | rfl <;> rfl

theorem isPrintable_of_ascii {c : Char} (h : 32 ≤ c.toNat) (h' : c.toNat < 127) :
    isPrintable c = true ∧ isBreak c = false := by
  have hne : ∀ d : Char, d.toNat < 32 ∨ 127 ≤ d.toNat → c ≠ d := by
    rintro d hd rfl
    omega
  constructor
  · have hallowed : isAllowed c = true := by
      simp [isAllowed]
      omega
    simp [isPrintable, hallowed, hne '\t' (by decide), hne '\r' (by decide),
      hne '\u0085' (by decide), hne byteOrderMark (by decide)]
  · simp [isBreak, hne '\n' (by decide), hne '\u2028' (by decide), hne '\u2029' (by decide)]

/-! ## Places -/

/-- The place behind a character. -/
def Mark.behind (m : Mark) (c : Char) : Mark :=
  if isBreak c then m.below c.utf8Size else m.past c.utf8Size

/-- The place behind some characters. -/
def Mark.over (m : Mark) (cs : List Char) : Mark := cs.foldl Mark.behind m

/-- Characters at their places, from a place on. -/
def place (m : Mark) : List Char → List Placed
  | [] => []
  | c :: cs => ⟨c, m⟩ :: place (m.behind c) cs

section

variable {m : Mark} {c : Char} {cs xs : List Char}

@[simp] theorem Mark.over_nil : m.over [] = m := rfl

@[simp] theorem Mark.over_cons : m.over (c :: cs) = (m.behind c).over cs := rfl

@[simp] theorem Mark.over_append : m.over (xs ++ cs) = (m.over xs).over cs := List.foldl_append

@[simp] theorem place_nil : place m [] = [] := rfl

@[simp] theorem place_cons : place m (c :: cs) = ⟨c, m⟩ :: place (m.behind c) cs := rfl

@[simp] theorem place_append : place m (xs ++ cs) = place m xs ++ place (m.over xs) cs := by
  induction xs generalizing m with
  | nil => rfl
  | cons x xs ih => rw [List.cons_append, place_cons, ih, place_cons, Mark.over_cons,
      List.cons_append]

@[simp] theorem length_place : (place m cs).length = cs.length := by
  induction cs generalizing m with
  | nil => rfl
  | cons c cs ih => rw [place_cons, List.length_cons, ih, List.length_cons]

@[simp] theorem markOf_place : markOf (m.over cs) (place m cs) = m := by
  cases cs <;> rfl

@[simp] theorem atGap_place : Yaml.atGap (place m cs) = Written.atGap cs := by
  cases cs <;> rfl

/-! ### Lines and columns -/

theorem Mark.behind_of_break (h : isBreak c = true) : m.behind c = m.below c.utf8Size := if_pos h

theorem Mark.behind_of_no_break (h : isBreak c = false) : m.behind c = m.past c.utf8Size :=
  if_neg (by rw [h]; exact Bool.false_ne_true)

/-- Characters of one line. -/
def OneLine (cs : List Char) : Prop := ∀ c ∈ cs, isBreak c = false

theorem Mark.over_oneLine (h : OneLine cs) :
    (m.over cs).line = m.line ∧ (m.over cs).column = m.column + cs.length := by
  induction cs generalizing m with
  | nil => exact ⟨rfl, rfl⟩
  | cons c cs ih =>
    obtain ⟨hc, hcs⟩ := List.forall_mem_cons.1 h
    obtain ⟨hline, hcolumn⟩ := ih (m := m.behind c) hcs
    rw [Mark.over_cons, hline, hcolumn, Mark.behind_of_no_break hc, List.length_cons]
    exact ⟨rfl, by simp only [Mark.past]; omega⟩

theorem Mark.column_over (h : OneLine cs) : (m.over cs).column = m.column + cs.length :=
  (Mark.over_oneLine h).2

theorem oneLine_spaces (n : Nat) : OneLine (spaces n) := by
  intro c hc
  rw [List.eq_of_mem_replicate hc]
  rfl

theorem printable_spaces (n : Nat) : ∀ c ∈ spaces n, isPrintable c = true := by
  intro c hc
  rw [List.eq_of_mem_replicate hc]
  rfl

theorem spaces_succ (n : Nat) : spaces (n + 1) = ' ' :: spaces n := rfl

@[simp] theorem length_spaces (n : Nat) : (spaces n).length = n := List.length_replicate

theorem Mark.column_behind (h : isBreak c = false) : (m.behind c).column = m.column + 1 := by
  rw [Mark.behind_of_no_break h]
  rfl

theorem Mark.column_behind_break (h : isBreak c = true) : (m.behind c).column = 0 := by
  rw [Mark.behind_of_break h]
  rfl

theorem Mark.column_over_spaces (n : Nat) : (m.over (spaces n)).column = m.column + n := by
  rw [Mark.column_over (oneLine_spaces n), length_spaces]

theorem Mark.column_over_endsWith (h : endsWith isBreak cs = true) : (m.over cs).column = 0 := by
  rcases List.eq_nil_or_concat cs with rfl | ⟨cs, c, rfl⟩
  · exact nomatch h
  · rw [List.concat_eq_append] at h ⊢
    rw [endsWith, List.getLast?_concat] at h
    rw [Mark.over_append]
    exact Mark.column_behind_break (c := c) h

/-! ### What a line starts with -/

/-- A line that separates documents starts in the first column, with a dash or a point. -/
def Apart (m : Mark) (c : Char) : Prop := m.column ≠ 0 ∨ (c ≠ '-' ∧ c ≠ '.')

theorem atTriple_eq_false {d : Char} (h : m.column ≠ 0 ∨ c ≠ d) {rest : List Placed} :
    atTriple d (⟨c, m⟩ :: rest) = false := by
  unfold atTriple
  split
  · rename_i he
    cases he
    rcases h with h | h <;> simp [h]
  · rfl

theorem Apart.atSeparator_eq (h : Apart m c) {rest : List Placed} :
    atSeparator (⟨c, m⟩ :: rest) = false := by
  rw [atSeparator, atTriple_eq_false (h.imp_right And.left),
    atTriple_eq_false (h.imp_right And.right)]
  rfl

end

/-! ## Layouts -/

theorem ofChars_of_printable {cs : List Char} (h : ∀ c ∈ cs, isPrintable c = true) (m : Mark) :
    Layout.ofChars m cs = ⟨place m cs, m.over cs⟩ := by
  induction cs generalizing m with
  | nil => rfl
  | cons c cs ih =>
    obtain ⟨hc, hcs⟩ := List.forall_mem_cons.1 h
    obtain ⟨-, hreturn, hnext, -⟩ := ne_of_printable hc
    rw [Layout.ofChars, if_neg (not_or.2 ⟨hreturn, hnext⟩), ih hcs, ih hcs, place_cons,
      Mark.over_cons, Mark.behind]
    · split <;> rfl
    · exact fun _ hr => absurd hr hreturn

theorem firstForbidden?_of_printable {cs : List Char} (h : ∀ c ∈ cs, isPrintable c = true) :
    firstForbidden? cs = none := by
  suffices hall : ∀ sound used index offset, findForbidden? sound used index offset cs = none from
    hall 0 0 0 0
  induction cs with
  | nil => exact fun _ _ _ _ => rfl
  | cons c cs ih =>
    obtain ⟨hc, hcs⟩ := List.forall_mem_cons.1 h
    intro sound used index offset
    rw [findForbidden?]
    simp only [isAllowed_of_printable hc, if_true]
    exact ih hcs ..

end PageMend.Yaml
