import PageMend.Proofs.Yaml.Lines

/-!
# The lines that are written

Strings, truth values, headings and empty lists are each written as a line with a key, and each such
line is sound: it is read back as what was written.
-/

namespace PageMend.Yaml

open Written

namespace Line

/-- A key and a string. -/
def entry (column : Nat) (isItem : Bool) (key value : String) : Line where
  column
  isItem
  key := key.toList
  value := ' ' :: endLine (scalar ((if isItem then column + 2 else column) + step) value)
  valueSigns := [.scalar (styleOf value) value]

/-- A key and a truth value. -/
def flag (column : Nat) (key : String) (value : Bool) : Line where
  column
  isItem := false
  key := key.toList
  value := ' ' :: ((if value then "true" else "false").toList ++ ['\n'])
  valueSigns := [.scalar .plain (if value then "true" else "false")]

/-- A key whose value is written on the lines below. -/
def heading (column : Nat) (key : String) : Line where
  column
  isItem := false
  key := key.toList
  value := ['\n']
  valueSigns := []

/-- A key and an empty list. -/
def emptyList (column : Nat) (key : String) : Line where
  column
  isItem := false
  key := key.toList
  value := [' ', '[', ']', '\n']
  valueSigns := [.flowSequence, .flowSequenceEnd]

variable {column : Nat} {key : String}

theorem sound_entry (hkey : IsName key.toList) (isItem : Bool) (value : String) :
    (entry column isItem key value).Sound where
  key := hkey
  value := Lexing.isValue_scalar value
  printable := List.forall_mem_cons.2 ⟨rfl, printable_endLine (printable_scalar _ value)⟩
  gap := rfl
  ends := endsWith_cons (endsWith_endLine _)

theorem sound_flag (hkey : IsName key.toList) (value : Bool) :
    (flag column key value).Sound where
  key := hkey
  value := by
    have hplain : canBePlain (if value then "true" else "false").toList = true := by
      cases value <;> decide
    have hne : (if value then "true" else "false").toList ≠ [] := by cases value <;> decide
    have hvalue : Lexing.IsValue column _ _ := Lexing.isValue_plain hplain hne
    rw [String.ofList_toList] at hvalue
    exact hvalue
  printable := by
    have hword : ∀ b : Bool, ∀ c ∈ (if b then "true" else "false").toList,
        isPrintable c = true := by
      intro b
      cases b <;> exact List.all_eq_true.1 rfl
    exact List.forall_mem_cons.2 ⟨rfl, List.forall_mem_append.2
      ⟨hword value, List.forall_mem_singleton.2 rfl⟩⟩
  gap := rfl
  ends := by cases value <;> rfl

theorem sound_heading (hkey : IsName key.toList) : (heading column key).Sound where
  key := hkey
  value := Lexing.isValue_heading
  printable := List.forall_mem_singleton.2 rfl
  gap := rfl
  ends := rfl

theorem sound_emptyList (hkey : IsName key.toList) : (emptyList column key).Sound where
  key := hkey
  value := Lexing.isValue_emptyList
  printable := by
    have hall : ∀ c ∈ [' ', '[', ']', '\n'], isPrintable c = true := List.all_eq_true.1 rfl
    exact hall
  gap := rfl
  ends := rfl

/-! ### Their signs -/

variable {indents : List Nat} {value : String}

theorem signs_entry : (entry column false key value).signs indents =
    Lexing.arrive .blockMapping indents column ++
      [.key, .scalar .plain key, .colon, .scalar (styleOf value) value] := by
  simp [signs, entry, behindDash, keyColumn]

theorem signs_item : (entry column true key value).signs indents =
    Lexing.arrive .blockSequence indents column ++ .dash :: (Lexing.arrive .blockMapping
      (Lexing.entered (Lexing.within indents column) column) (column + 2) ++
        [.key, .scalar .plain key, .colon, .scalar (styleOf value) value]) := by
  simp [signs, entry, behindDash, keyColumn]

theorem signs_flag {value : Bool} : (flag column key value).signs indents =
    Lexing.arrive .blockMapping indents column ++
      [.key, .scalar .plain key, .colon, .scalar .plain (if value then "true" else "false")] := by
  simp [signs, flag, behindDash, keyColumn]

theorem signs_heading : (heading column key).signs indents =
    Lexing.arrive .blockMapping indents column ++ [.key, .scalar .plain key, .colon] := by
  simp [signs, heading, behindDash, keyColumn]

theorem signs_emptyList : (emptyList column key).signs indents =
    Lexing.arrive .blockMapping indents column ++
      [.key, .scalar .plain key, .colon, .flowSequence, .flowSequenceEnd] := by
  simp [signs, emptyList, behindDash, keyColumn]

/-! ### The blocks behind them -/

theorem behind_entry : (entry column false key value).behind indents =
    Lexing.entered (Lexing.within indents column) column := rfl

theorem behind_heading : (heading column key).behind indents =
    Lexing.entered (Lexing.within indents column) column := rfl

theorem behind_flag {value : Bool} : (flag column key value).behind indents =
    Lexing.entered (Lexing.within indents column) column := rfl

/-! ### Their text -/

theorem toList_entry (column : Nat) (key value : String) :
    (Written.entry column key value).toList = (entry column false key value).chars := by
  simp [Written.entry, entryAfter, chars, word, entry]

theorem toList_item (key value : String) :
    (entryAfter "  - " key value).toList = (entry 2 true key value).chars := by
  have hspaces : spaces 2 = [' ', ' '] := rfl
  have hlength : "  - ".length = 2 + 2 := rfl
  simp [entryAfter, chars, word, entry, hspaces, hlength]

theorem toList_flag (column : Nat) (key : String) (value : Bool) :
    (Written.flag column key value).toList = (flag column key value).chars := by
  simp [Written.flag, chars, word, flag]

theorem toList_heading (column : Nat) (key : String) :
    (Written.heading column key).toList = (heading column key).chars := by
  simp [Written.heading, chars, word, heading]

end Line

end PageMend.Yaml
