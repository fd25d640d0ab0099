import Mathlib.Data.Nat.Digits.Defs
import PageMend.Batch.Timestamp

/-!
# Timestamps are read back

Each part of a written timestamp is read as the number that it was written for: a number of fixed
width stops where its width is used up, a year with a sign where its digits end. The fraction has
three, six or nine digits, or is left out, and is scaled to billionths again
(`readFraction_format`). A time in universal time is moved by no minutes, so that every timestamp of
the calendar is read back (`read?_format`), those of years with a sign and leap seconds included.
-/

namespace PageMend.Timestamp

/-! ## Numbers -/

theorem numberOf_eq (ds : List Char) : numberOf ds = Nat.ofDigitChars 10 ds 0 :=
  Nat.ofDigitChars_eq_foldl.symm

theorem isDigit_padded {width n : Nat} {c : Char} (h : c ∈ padded width n) :
    c.isDigit = true := by
  rcases List.mem_append.1 h with h | h
  · rw [List.eq_of_mem_replicate h]
    rfl
  · exact Nat.isDigit_of_mem_toDigits (by decide) (by decide) h

theorem numberOf_padded (width n : Nat) : numberOf (padded width n) = n := by
  rw [numberOf_eq, padded, Nat.ofDigitChars_append, Nat.ofDigitChars_replicate_zero, Nat.mul_zero,
    Nat.ofDigitChars_ten_toDigits]

/-- A number that needs no more digits has exactly as many as it is padded to. -/
theorem length_padded {width n : Nat} (hpos : 0 < width) (h : n < 10 ^ width) :
    (padded width n).length = width := by
  have hlen := (Nat.length_toDigits_le_iff (b := 10) (by decide) hpos).2 h
  rw [padded, List.length_append, List.length_replicate]
  omega

theorem padded_ne_nil (width n : Nat) : padded width n ≠ [] := by
  intro h
  exact Nat.toDigits_ne_nil (List.append_eq_nil_iff.1 h).2

theorem isBlank_of_isDigit {c : Char} (h : c.isDigit = true) : Text.isBlank c = false := by
  have hrange : 48 ≤ c.toNat ∧ c.toNat ≤ 57 := by
    simpa [Char.isDigit, UInt32.le_iff_toNat_le] using h
  simp only [Text.isBlank, Bool.or_eq_false_iff, Bool.and_eq_false_iff, decide_eq_false_iff_not,
    beq_eq_false_iff_ne]
  omega

theorem skipBlanks_cons {c : Char} (h : Text.isBlank c = false) (cs : List Char) :
    skipBlanks (c :: cs) = c :: cs :=
  List.dropWhile_cons_of_neg (by rw [h]; exact Bool.false_ne_true)

theorem skipBlanks_digits {ds : List Char} (hne : ds ≠ []) (hds : ∀ c ∈ ds, c.isDigit = true)
    (rest : List Char) : skipBlanks (ds ++ rest) = ds ++ rest := by
  obtain ⟨d, ds, rfl⟩ := List.exists_cons_of_ne_nil hne
  exact skipBlanks_cons (isBlank_of_isDigit (hds d List.mem_cons_self)) _

/-- Digits are read as their number, if they use up the width or end before it does. -/
theorem readNumber_append {width : Nat} {ds rest : List Char} (hne : ds ≠ [])
    (hds : ∀ c ∈ ds, c.isDigit = true) (hlen : ds.length ≤ width)
    (hrest : ds.length = width ∨ rest.head?.any Char.isDigit = false) :
    readNumber width (ds ++ rest) = some (numberOf ds, rest) := by
  have htake : ((ds ++ rest).take width).takeWhile Char.isDigit = ds := by
    rw [List.take_append, List.take_of_length_le hlen, List.takeWhile_append_of_pos hds]
    have hnone : (rest.take (width - ds.length)).takeWhile Char.isDigit = [] := by
      rcases hrest with h | h
      · rw [h, Nat.sub_self]
        rfl
      · cases rest with
        | nil => rw [List.take_nil, List.takeWhile_nil]
        | cons c rest =>
          cases width - ds.length with
          | zero => rfl
          | succ k =>
            have hc : c.isDigit = false := h
            simp [hc]
    rw [hnone, List.append_nil]
  rw [readNumber, skipBlanks_digits hne hds]
  simp only [htake, if_neg hne, List.drop_left]

/-- A number of fixed width, whatever stands behind it. -/
theorem readNumber_padded {width n : Nat} (hpos : 0 < width) (h : n < 10 ^ width)
    (rest : List Char) : readNumber width (padded width n ++ rest) = some (n, rest) := by
  have hlen := length_padded hpos h
  rw [readNumber_append (padded_ne_nil width n) (fun _ => isDigit_padded) (Nat.le_of_eq hlen)
    (.inl hlen), numberOf_padded]

/-- A sign is not blank, so it is found. -/
theorem readSign_cons {sign : Char} (h : Text.isBlank sign = false) (rest : List Char) :
    readSign sign (sign :: rest) = some rest := by
  rw [readSign, skipBlanks_cons h]
  exact if_pos rfl

/-! ## The parts of a timestamp -/

theorem readYear_format (year : Int) (rest : List Char) :
    readYear (formatYear year ++ '-' :: rest) = some (year, '-' :: rest) := by
  rw [formatYear]
  split
  · rename_i h
    have hnumber : readNumber 4 (padded 4 year.toNat ++ '-' :: rest) =
        some (year.toNat, '-' :: rest) :=
      readNumber_padded (by decide) (by omega) _
    -- the year starts with a digit, so there is no sign
    obtain ⟨d, ds, hds⟩ := List.exists_cons_of_ne_nil (padded_ne_nil 4 year.toNat)
    have hd : d.isDigit = true := isDigit_padded (hds ▸ List.mem_cons_self)
    rw [readYear, skipBlanks_digits (padded_ne_nil _ _) fun _ => isDigit_padded]
    split
    · rename_i he
      rw [hds, List.cons_append] at he
      cases he
      exact nomatch hd
    · rename_i he
      rw [hds, List.cons_append] at he
      cases he
      exact nomatch hd
    · simp only [hnumber, Option.map_some, Int.toNat_of_nonneg h.1]
  · have hsigned : ∀ n : Nat, let cs := padded 4 n ++ '-' :: rest
        cs.head?.any Char.isDigit = true ∧ readNumber cs.length cs = some (n, '-' :: rest) := by
      intro n
      obtain ⟨d, ds, hds⟩ := List.exists_cons_of_ne_nil (padded_ne_nil 4 n)
      have hd : d.isDigit = true := isDigit_padded (hds ▸ List.mem_cons_self)
      have hlen : (padded 4 n).length ≤ (padded 4 n ++ '-' :: rest).length := by
        rw [List.length_append]
        omega
      refine ⟨by rw [hds]; exact hd, ?_⟩
      rw [readNumber_append (padded_ne_nil 4 n) (fun _ => isDigit_padded) hlen (.inr rfl),
        numberOf_padded]
    obtain ⟨hhead, hnumber⟩ := hsigned year.natAbs
    by_cases hneg : year < 0
    · rw [if_pos hneg, List.cons_append, readYear, skipBlanks_cons rfl]
      simp only [hhead, if_true, hnumber, Option.map_some]
      congr 2
      omega
    · rw [if_neg hneg, List.cons_append, readYear, skipBlanks_cons rfl]
      simp only [hhead, if_true, hnumber, Option.map_some]
      congr 2
      omega

/-- A fraction counts what its digits say, in the unit of its width. -/
theorem readFraction_padded {width n : Nat} (hpos : 0 < width) (hwidth : width ≤ 9)
    (h : n < 10 ^ width) (rest : List Char) :
    readFraction ('.' :: (padded width n ++ 'Z' :: rest)) =
      some (n * 10 ^ (9 - width), 'Z' :: rest) := by
  have hdigits : ∀ c ∈ padded width n, c.isDigit = true := fun _ => isDigit_padded
  have hlen := length_padded hpos h
  have hend : ('Z' :: rest).takeWhile Char.isDigit = [] ∧
      ('Z' :: rest).dropWhile Char.isDigit = 'Z' :: rest := ⟨rfl, rfl⟩
  simp only [readFraction, List.takeWhile_append_of_pos hdigits,
    List.dropWhile_append_of_pos hdigits, hend, List.append_nil, if_neg (padded_ne_nil width n),
    List.take_of_length_le (hlen.trans_le hwidth), hlen, numberOf_padded, Nat.pow_eq]

theorem readFraction_format {nanosecond : Nat} (h : nanosecond < 1000000000) (rest : List Char) :
    readFraction (formatFraction nanosecond ++ 'Z' :: rest) = some (nanosecond, 'Z' :: rest) := by
  rw [formatFraction]
  split
  · subst nanosecond
    rfl
  split
  · rename_i hmilli
    rw [List.cons_append, readFraction_padded (by decide) (by decide) (by omega)]
    congr 2
    omega
  split
  · rename_i hmicro
    rw [List.cons_append, readFraction_padded (by decide) (by decide) (by omega)]
    congr 2
    omega
  · rw [List.cons_append, readFraction_padded (by decide) (by decide) h]
    congr 2
    omega

/-- A time that is in universal time already. -/
theorem minusMinutes_zero {t : Timestamp} (hhour : t.hour < 24) (hminute : t.minute < 60) :
    t.minusMinutes 0 = t := by
  have hlow : ¬((t.hour : Int) * 60 + t.minute - 0 < 0) := by omega
  have hhigh : ¬(1440 ≤ (t.hour : Int) * 60 + t.minute - 0) := by omega
  simp only [minusMinutes, if_neg hlow, if_neg hhigh]
  have htotal : ((t.hour : Int) * 60 + t.minute - 0).toNat = t.hour * 60 + t.minute := by omega
  rw [htotal]
  have hdiv : (t.hour * 60 + t.minute) / 60 = t.hour := by omega
  have hmod : (t.hour * 60 + t.minute) % 60 = t.minute := by omega
  rw [hdiv, hmod]

theorem daysInMonth_lt (year : Int) (month : Nat) : daysInMonth year month < 100 := by
  unfold daysInMonth
  split
  · split <;> decide
  split <;> decide

/-- Every timestamp of the calendar is read back from its text. -/
theorem read?_format {t : Timestamp} (h : t.IsValid) : read? t.format = some t := by
  have ⟨_, ⟨_, hmonth⟩, ⟨_, hday⟩, hhour, hminute, hsecond, hnano⟩ := h
  have hdays := daysInMonth_lt t.year t.month
  have htwo : ∀ {n : Nat} (rest : List Char), n < 100 →
      readNumber 2 (padded 2 n ++ rest) = some (n, rest) :=
    fun rest hn => readNumber_padded (by decide) hn rest
  have hdash : ∀ rest, readSign '-' ('-' :: rest) = some rest := readSign_cons rfl
  have hcolon : ∀ rest, readSign ':' (':' :: rest) = some rest := readSign_cons rfl
  have hbetween : ∀ rest, readBetween ('T' :: rest) = some rest := fun _ => rfl
  rw [read?, format, String.toList_ofList, formatChars]
  simp only [List.append_assoc, List.cons_append]
  -- each part is taken from what is left, and the next one sees the rest
  have hnext : ∀ {α β : Type} (a : α) (f : α → Option β), (some a >>= f) = f a := fun _ _ => rfl
  rw [readChars?, readYear_format, hnext]
  dsimp only
  rw [hdash, hnext, htwo _ (by omega), hnext]
  dsimp only
  rw [hdash, hnext, htwo _ (by omega), hnext]
  dsimp only
  rw [hbetween, hnext, htwo _ (by omega), hnext]
  dsimp only
  rw [hcolon, hnext, htwo _ (by omega), hnext]
  dsimp only
  rw [hcolon, hnext, htwo _ (by omega), hnext]
  dsimp only
  rw [readFraction_format hnano, hnext]
  show (if _ then some (t.minusMinutes 0) else none) = some t
  rw [minusMinutes_zero hhour hminute]
  exact if_pos ⟨h, minusMinutes_zero hhour hminute ▸ h, rfl⟩

end PageMend.Timestamp
