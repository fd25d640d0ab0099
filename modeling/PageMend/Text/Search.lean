/-!
# Finding and replacing text

Occurrences are found from left to right and do not overlap: after a match the search goes on
behind it. `occursIn_iff` says that `occursIn` is the infix relation, and
`replaceAll_of_not_occursIn` that a text without an occurrence is left as it is.
-/

namespace PageMend.Text

/-- Whether `pattern` stands somewhere in the text. The empty pattern stands in every text. -/
def occursIn (pattern : List Char) : List Char → Bool
  | [] => pattern.isEmpty
  | c :: cs => pattern.isPrefixOf (c :: cs) || occursIn pattern cs

/-- The text with each occurrence of `pattern` replaced, from left to right and without overlap.
An empty pattern replaces nothing. -/
def replaceAll (pattern replacement : List Char) : List Char → List Char
  | [] => []
  | c :: cs =>
    if pattern ≠ [] ∧ pattern.isPrefixOf (c :: cs) then
      replacement ++ replaceAll pattern replacement ((c :: cs).drop pattern.length)
    else
      c :: replaceAll pattern replacement cs
termination_by cs => cs.length
decreasing_by
  · rename_i h
    have := List.length_pos_iff.2 h.1
    simp only [List.length_drop, List.length_cons]
    omega
  · simp

/-! ### What a match is -/

theorem occursIn_iff {pattern text : List Char} :
    occursIn pattern text = true ↔ pattern <:+: text := by
  induction text with
  | nil => simp [occursIn]
  | cons c cs ih => simp [occursIn, ih, List.infix_cons_iff]

/-! ### What a replacement leaves alone -/

theorem replaceAll_of_not_occursIn {pattern text : List Char} (replacement : List Char)
    (h : occursIn pattern text = false) : replaceAll pattern replacement text = text := by
  induction text with
  | nil => rw [replaceAll]
  | cons c cs ih =>
    simp only [occursIn, Bool.or_eq_false_iff] at h
    rw [replaceAll]
    simp [h.1, ih h.2]

end PageMend.Text

namespace String

/-- Whether `pattern` stands somewhere in the string. -/
def hasInfix (s pattern : String) : Bool :=
  PageMend.Text.occursIn pattern.toList s.toList

/-- The string with each occurrence of `pattern` replaced, from left to right and without
overlap. -/
def replaceEach (s pattern replacement : String) : String :=
  String.ofList (PageMend.Text.replaceAll pattern.toList replacement.toList s.toList)

end String
