import Mathlib.Data.List.Basic
import Mathlib.Data.List.TakeWhile
import PageMend.Report.Json

/-!
# The grammar of JSON

`Spells v cs` says that the value `v` may be written as `cs`: with blanks where they may stand, any
of the ways to spell a character, and numbers as they are. It knows of no level and no line, and
nothing of how a text is read. What is written is a text of the value (`isText_pretty`).
-/

namespace PageMend.Json

/-! ## The grammar -/

/-- Blanks only. -/
def AllSpace (cs : List Char) : Prop := ∀ c ∈ cs, isSpace c = true

/-- Digits only, and at least one. -/
structure IsDigits (cs : List Char) : Prop where
  nonempty : cs ≠ []
  digits : ∀ c ∈ cs, c.isDigit = true

/-- A whole number has no zero in front. -/
structure IsWhole (cs : List Char) : Prop extends IsDigits cs where
  leading : cs.head? = some '0' → cs = ['0']

inductive IsFraction : List Char → Prop
  | absent : IsFraction []
  | present {ds : List Char} (h : IsDigits ds) : IsFraction ('.' :: ds)

inductive IsExponent : List Char → Prop
  | absent : IsExponent []
  | plain {e : Char} {ds : List Char} (he : e = 'e' ∨ e = 'E') (h : IsDigits ds) :
    IsExponent (e :: ds)
  | signed {e s : Char} {ds : List Char} (he : e = 'e' ∨ e = 'E') (hs : s = '+' ∨ s = '-')
    (h : IsDigits ds) : IsExponent (e :: s :: ds)

inductive IsNumber : List Char → Prop
  | positive {whole fraction exponent : List Char} (hw : IsWhole whole)
    (hf : IsFraction fraction) (he : IsExponent exponent) : IsNumber (whole ++ fraction ++ exponent)
  | negative {whole fraction exponent : List Char} (hw : IsWhole whole)
    (hf : IsFraction fraction) (he : IsExponent exponent) :
    IsNumber ('-' :: (whole ++ fraction ++ exponent))

/-- The ways to spell a character inside quotation marks. -/
inductive SpellsChar : Char → List Char → Prop
  | plain {c : Char} (hquote : c ≠ '"') (hslash : c ≠ '\\') (hcontrol : 0x20 ≤ c.toNat) :
    SpellsChar c [c]
  | letter {c l : Char} (h : unescapeLetter? l = some c) : SpellsChar c ['\\', l]
  | quad {a b c d : Char} {n : Nat} (h : hexQuad? a b c d = some n)
    (hn : n < 0xD800 ∨ 0xE000 ≤ n) : SpellsChar (Char.ofNat n) ['\\', 'u', a, b, c, d]
  | pair {a b c d a' b' c' d' e : Char} {high low : Nat} (hh : hexQuad? a b c d = some high)
    (hl : hexQuad? a' b' c' d' = some low) (he : ofSurrogates? high low = some e) :
    SpellsChar e ['\\', 'u', a, b, c, d, '\\', 'u', a', b', c', d']

/-- The inside of a string. -/
inductive SpellsChars : List Char → List Char → Prop
  | nil : SpellsChars [] []
  | cons {c : Char} {s xs ys : List Char} (hc : SpellsChar c xs) (hs : SpellsChars s ys) :
    SpellsChars (c :: s) (xs ++ ys)

/-- A string in quotation marks. -/
def SpellsString (s : String) (cs : List Char) : Prop :=
  ∃ inside, SpellsChars s.toList inside ∧ cs = '"' :: inside ++ ['"']

mutual

/-- The texts of a value. -/
inductive Spells : Json → List Char → Prop
  | nullWord : Spells .null "null".toList
  | trueWord : Spells (.bool true) "true".toList
  | falseWord : Spells (.bool false) "false".toList
  | number {cs : List Char} (h : IsNumber cs) : Spells (.number cs) cs
  | string {s : String} {cs : List Char} (h : SpellsString s cs) : Spells (.string s) cs
  | emptyArray {b : List Char} (hb : AllSpace b) : Spells (.array []) ('[' :: b ++ [']'])
  | array {vs : List Json} {cs : List Char} (h : SpellsItems vs cs) :
    Spells (.array vs) ('[' :: cs ++ [']'])
  | emptyObject {b : List Char} (hb : AllSpace b) : Spells (.object []) ('\x7b' :: b ++ ['\x7d'])
  | object {ms : List (String × Json)} {cs : List Char} (h : SpellsMembers ms cs) :
    Spells (.object ms) ('\x7b' :: cs ++ ['\x7d'])

/-- The texts of the items of an array, without its brackets. -/
inductive SpellsItems : List Json → List Char → Prop
  | one {v : Json} {b b' cs : List Char} (hb : AllSpace b) (hv : Spells v cs) (hb' : AllSpace b') :
    SpellsItems [v] (b ++ cs ++ b')
  | cons {v : Json} {vs : List Json} {b b' cs cs' : List Char} (hb : AllSpace b)
    (hv : Spells v cs) (hb' : AllSpace b') (hvs : SpellsItems vs cs') :
    SpellsItems (v :: vs) (b ++ cs ++ b' ++ ',' :: cs')

/-- The texts of the members of an object, without its braces. -/
inductive SpellsMembers : List (String × Json) → List Char → Prop
  | one {k : String} {v : Json} {b b' b'' b₃ ks cs : List Char} (hb : AllSpace b)
    (hk : SpellsString k ks) (hb' : AllSpace b') (hb'' : AllSpace b'') (hv : Spells v cs)
    (hb₃ : AllSpace b₃) :
    SpellsMembers [(k, v)] (b ++ ks ++ b' ++ ':' :: (b'' ++ cs ++ b₃))
  | cons {k : String} {v : Json} {ms : List (String × Json)}
    {b b' b'' b₃ ks cs cs' : List Char} (hb : AllSpace b)
    (hk : SpellsString k ks) (hb' : AllSpace b') (hb'' : AllSpace b'') (hv : Spells v cs)
    (hb₃ : AllSpace b₃) (hms : SpellsMembers ms cs') :
    SpellsMembers ((k, v) :: ms) (b ++ ks ++ b' ++ ':' :: (b'' ++ cs ++ b₃ ++ ',' :: cs'))

end

/-- A whole text, with blanks around its value. -/
def IsText (s : String) (v : Json) : Prop :=
  ∃ b cs b', AllSpace b ∧ Spells v cs ∧ AllSpace b' ∧ s.toList = b ++ (cs ++ b')

/-! ## What is written -/

theorem AllSpace.nil : AllSpace [] := fun _ h => nomatch h

theorem allSpace_newLine (level : Nat) : AllSpace (newLine level) := by
  intro c hc
  rcases List.mem_cons.1 hc with rfl | hc
  · rfl
  · rw [List.eq_of_mem_replicate hc]
    rfl

theorem isWhole_toDigits (n : Nat) : IsWhole (Nat.toDigits 10 n) where
  nonempty := Nat.toDigits_ne_nil
  digits _ hc := Nat.isDigit_of_mem_toDigits (by decide) (by decide) hc
  leading := by
    induction n using Nat.strongRecOn with
    | ind n ih =>
      intro hhead
      by_cases hn : n < 10
      · rw [Nat.toDigits_of_lt_base hn] at hhead ⊢
        exact congrArg (·.toList) hhead
      · -- the first digit is that of a smaller number, which would have to be zero
        rw [Nat.toDigits_of_base_le (by decide) (by omega), List.head?_append_of_ne_nil _
          Nat.toDigits_ne_nil] at hhead
        have hzero := ih (n / 10) (by omega) hhead
        have hval : n / 10 = 0 := by
          rw [← Nat.ofDigitChars_ten_toDigits (n := n / 10), hzero]
          rfl
        omega

theorem isNumber_toDigits (n : Nat) : IsNumber (Nat.toDigits 10 n) := by
  have h := IsNumber.positive (isWhole_toDigits n) .absent .absent
  rwa [List.append_nil, List.append_nil] at h

/-- The escape of a control character has its number. -/
theorem hexQuad?_hexDigit : ∀ n < 0x20,
    hexQuad? '0' '0' (hexDigit (n / 16)) (hexDigit n) = some n := by
  decide

theorem spellsChar_escapeChar (c : Char) : SpellsChar c (escapeChar c) := by
  unfold escapeChar
  split
  · subst_vars; exact .letter rfl
  split
  · subst_vars; exact .letter rfl
  split
  · subst_vars; exact .letter rfl
  split
  · subst_vars; exact .letter rfl
  split
  · subst_vars; exact .letter rfl
  split
  · subst_vars; exact .letter rfl
  split
  · subst_vars; exact .letter rfl
  split
  · rename_i hlow
    have h := SpellsChar.quad (hexQuad?_hexDigit c.toNat hlow) (.inl (by omega))
    rwa [Char.ofNat_toNat] at h
  · rename_i hquote hslash _ _ _ _ _ hlow
    exact .plain hquote hslash (Nat.le_of_not_lt hlow)

theorem spellsString_writeString (s : String) : SpellsString s (writeString s) := by
  refine ⟨_, ?_, rfl⟩
  induction s.toList with
  | nil => exact .nil
  | cons c cs ih => exact .cons (spellsChar_escapeChar c) ih

/-- Values whose numbers are numbers. -/
inductive Proper : Json → Prop
  | null : Proper .null
  | bool (b : Bool) : Proper (.bool b)
  | number {cs : List Char} (h : IsNumber cs) : Proper (.number cs)
  | string (s : String) : Proper (.string s)
  | array {vs : List Json} (h : ∀ v ∈ vs, Proper v) : Proper (.array vs)
  | object {ms : List (String × Json)} (h : ∀ m ∈ ms, Proper m.2) : Proper (.object ms)

theorem spellsItems_prettyItems {level : Nat} {vs : List Json} (hne : vs ≠ [])
    (h : ∀ v ∈ vs, Spells v (v.prettyChars level)) {b b' : List Char} (hb : AllSpace b)
    (hb' : AllSpace b') : SpellsItems vs (b ++ prettyItems level vs ++ b') := by
  induction vs generalizing b with
  | nil => exact absurd rfl hne
  | cons v vs ih =>
    obtain ⟨hv, hvs⟩ := List.forall_mem_cons.1 h
    cases vs with
    | nil => exact .one hb hv hb'
    | cons w ws =>
      have hrest := ih (List.cons_ne_nil _ _) hvs (allSpace_newLine level)
      have := SpellsItems.cons hb hv .nil hrest
      simpa [prettyItems] using this

theorem spellsMembers_prettyMembers {level : Nat} {ms : List (String × Json)} (hne : ms ≠ [])
    (h : ∀ m ∈ ms, Spells m.2 (m.2.prettyChars level)) {b b' : List Char} (hb : AllSpace b)
    (hb' : AllSpace b') : SpellsMembers ms (b ++ prettyMembers level ms ++ b') := by
  have hblank : AllSpace [' '] := by
    intro c hc
    rw [List.mem_singleton.1 hc]
    rfl
  induction ms generalizing b with
  | nil => exact absurd rfl hne
  | cons m ms ih =>
    obtain ⟨k, v⟩ := m
    obtain ⟨hv, hms⟩ := List.forall_mem_cons.1 h
    have hk := spellsString_writeString k
    cases ms with
    | nil =>
      have := SpellsMembers.one hb hk .nil hblank hv hb'
      simpa [prettyMembers] using this
    | cons n ns =>
      have hrest := ih (List.cons_ne_nil _ _) hms (allSpace_newLine level)
      have := SpellsMembers.cons hb hk .nil hblank hv .nil hrest
      simpa [prettyMembers] using this

/-- What is written of a value is a text of it, at any level. -/
theorem spells_prettyChars {v : Json} (h : Proper v) (level : Nat) :
    Spells v (v.prettyChars level) := by
  induction h generalizing level with
  | null => exact .nullWord
  | bool b => cases b with
    | true => exact .trueWord
    | false => exact .falseWord
  | number h => exact .number h
  | string s => exact .string (spellsString_writeString s)
  | @array vs _ ih =>
    cases vs with
    | nil => exact .emptyArray .nil
    | cons v vs =>
      rw [prettyChars]
      exact Spells.array (spellsItems_prettyItems (List.cons_ne_nil v vs)
        (fun v hv => ih v hv (level + 1)) (allSpace_newLine (level + 1)) (allSpace_newLine level))
  | @object ms _ ih =>
    cases ms with
    | nil => exact .emptyObject .nil
    | cons m ms =>
      rw [prettyChars]
      exact Spells.object (spellsMembers_prettyMembers (List.cons_ne_nil m ms)
        (fun m hm => ih m hm (level + 1)) (allSpace_newLine (level + 1)) (allSpace_newLine level))

theorem isText_pretty {v : Json} (h : Proper v) : IsText v.pretty v :=
  ⟨[], v.prettyChars 0, [], .nil, spells_prettyChars h 0, .nil, by
    rw [pretty, String.toList_ofList, List.nil_append, List.append_nil]⟩

end PageMend.Json
