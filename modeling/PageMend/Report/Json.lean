/-!
# JSON

A JSON value, two ways to write it and a way to read it. Numbers are kept as they are written;
only those that are natural numbers have a value here. Members of an object keep their order.

`compact` writes without blanks and `pretty` with one member a line, indented by two blanks.
Strings escape quotation marks, backslashes and control characters below U+0020 only.
-/

namespace PageMend

inductive Json where
  | null
  | bool (value : Bool)
  | number (literal : List Char)
  | string (value : String)
  | array (items : List Json)
  | object (members : List (String × Json))
  deriving Repr, Inhabited

namespace Json

/-- A natural number. -/
def ofNat (n : Nat) : Json := .number (Nat.toDigits 10 n)

/-! ### Writing -/

/-- A hexadecimal digit, in lower case. -/
def hexDigit (n : Nat) : Char := (Nat.digitChar (n % 16))

/-- How one character is written inside quotation marks. -/
def escapeChar (c : Char) : List Char :=
  if c = '"' then ['\\', '"']
  else if c = '\\' then ['\\', '\\']
  else if c = '\x08' then ['\\', 'b']
  else if c = '\t' then ['\\', 't']
  else if c = '\n' then ['\\', 'n']
  else if c = '\x0c' then ['\\', 'f']
  else if c = '\r' then ['\\', 'r']
  else if c.toNat < 0x20 then
    ['\\', 'u', '0', '0', hexDigit (c.toNat / 16), hexDigit c.toNat]
  else [c]

def writeString (s : String) : List Char := '"' :: s.toList.flatMap escapeChar ++ ['"']

mutual

/-- A value without blanks. -/
def compactChars : Json → List Char
  | .null => "null".toList
  | .bool true => "true".toList
  | .bool false => "false".toList
  | .number literal => literal
  | .string s => writeString s
  | .array items => '[' :: compactItems items ++ [']']
  | .object members => '\x7b' :: compactMembers members ++ ['\x7d']

def compactItems : List Json → List Char
  | [] => []
  | [v] => compactChars v
  | v :: vs => compactChars v ++ ',' :: compactItems vs

def compactMembers : List (String × Json) → List Char
  | [] => []
  | [(k, v)] => writeString k ++ ':' :: compactChars v
  | (k, v) :: ms => writeString k ++ ':' :: compactChars v ++ ',' :: compactMembers ms

end

def compact (v : Json) : String := String.ofList v.compactChars

/-- A new line with the indent of a level. -/
def newLine (level : Nat) : List Char := '\n' :: List.replicate (2 * level) ' '

mutual

/-- A value whose first character stands on a line of the given level. -/
def prettyChars (level : Nat) : Json → List Char
  | .array (v :: vs) =>
    '[' :: newLine (level + 1) ++ prettyItems (level + 1) (v :: vs) ++ newLine level ++ [']']
  | .object (m :: ms) =>
    '\x7b' :: newLine (level + 1) ++ prettyMembers (level + 1) (m :: ms) ++ newLine level ++
      ['\x7d']
  | .null => "null".toList
  | .bool true => "true".toList
  | .bool false => "false".toList
  | .number literal => literal
  | .string s => writeString s
  | .array [] => ['[', ']']
  | .object [] => ['\x7b', '\x7d']

def prettyItems (level : Nat) : List Json → List Char
  | [] => []
  | [v] => prettyChars level v
  | v :: vs => prettyChars level v ++ ',' :: newLine level ++ prettyItems level vs

def prettyMembers (level : Nat) : List (String × Json) → List Char
  | [] => []
  | [(k, v)] => writeString k ++ ':' :: ' ' :: prettyChars level v
  | (k, v) :: ms =>
    writeString k ++ ':' :: ' ' :: prettyChars level v ++ ',' :: newLine level ++
      prettyMembers level ms

end

def pretty (v : Json) : String := String.ofList (v.prettyChars 0)

/-! ### Reading -/

/-- The blanks between the parts of a value. -/
def isSpace (c : Char) : Bool := c == ' ' || c == '\t' || c == '\n' || c == '\r'

def skipSpace (cs : List Char) : List Char := cs.dropWhile isSpace

theorem length_skipSpace_le (cs : List Char) : (skipSpace cs).length ≤ cs.length := by
  have := congrArg List.length (List.takeWhile_append_dropWhile (p := isSpace) (l := cs))
  simp only [List.length_append] at this
  unfold skipSpace
  omega

/-- The value of a hexadecimal digit. -/
def hexValue? (c : Char) : Option Nat :=
  if '0' ≤ c ∧ c ≤ '9' then some (c.toNat - '0'.toNat)
  else if 'a' ≤ c ∧ c ≤ 'f' then some (c.toNat - 'a'.toNat + 10)
  else if 'A' ≤ c ∧ c ≤ 'F' then some (c.toNat - 'A'.toNat + 10)
  else none

/-- The number that four hexadecimal digits stand for. -/
def hexQuad? (a b c d : Char) : Option Nat := do
  return (← hexValue? a) * 4096 + (← hexValue? b) * 256 + (← hexValue? c) * 16 + (← hexValue? d)

/-- The character that a letter stands for behind a backslash. -/
def unescapeLetter? (c : Char) : Option Char :=
  if c = '"' ∨ c = '\\' ∨ c = '/' then some c
  else if c = 'b' then some '\x08'
  else if c = 't' then some '\t'
  else if c = 'n' then some '\n'
  else if c = 'f' then some '\x0c'
  else if c = 'r' then some '\r'
  else none

/-- The character of a pair of surrogates. -/
def ofSurrogates? (high low : Nat) : Option Char :=
  if 0xD800 ≤ high ∧ high < 0xDC00 ∧ 0xDC00 ≤ low ∧ low < 0xE000 then
    some (Char.ofNat (0x10000 + (high - 0xD800) * 0x400 + (low - 0xDC00)))
  else none

/-- Reads the rest of a string, from behind its opening quotation mark on. -/
def readStringTail (cs : List Char) : Option (List Char × List Char) :=
  match cs with
  | '"' :: rest => some ([], rest)
  | '\\' :: 'u' :: a :: b :: c :: d :: rest =>
    match hexQuad? a b c d with
    | none => none
    | some n =>
      if n < 0xD800 ∨ 0xE000 ≤ n then
        (readStringTail rest).map fun (s, rest) => (Char.ofNat n :: s, rest)
      else
        match rest with
        | '\\' :: 'u' :: a :: b :: c :: d :: rest =>
          match (hexQuad? a b c d).bind (ofSurrogates? n) with
          | none => none
          | some c => (readStringTail rest).map fun (s, rest) => (c :: s, rest)
        | _ => none
  | '\\' :: c :: rest =>
    match unescapeLetter? c with
    | none => none
    | some c => (readStringTail rest).map fun (s, rest) => (c :: s, rest)
  | c :: rest =>
    if c = '\\' ∨ c.toNat < 0x20 then none
    else (readStringTail rest).map fun (s, rest) => (c :: s, rest)
  | [] => none
termination_by cs.length

theorem length_of_map_cons {o : Option (List Char × List Char)} {n : Nat} {c : Char}
    {s rest : List Char} (ho : ∀ {s rest : List Char}, o = some (s, rest) → rest.length < n)
    (h : (o.map fun (s, rest) => (c :: s, rest)) = some (s, rest)) : rest.length < n := by
  obtain ⟨p, hp, hf⟩ := Option.map_eq_some_iff.1 h
  cases hf
  exact ho hp

theorem length_of_readStringTail {cs s rest : List Char}
    (h : readStringTail cs = some (s, rest)) : rest.length < cs.length := by
  fun_induction readStringTail cs generalizing s rest with
  | case1 => cases h; simp
  | case2 => cases h
  | case3 a b c d rest' n hn _ ih =>
    have := length_of_map_cons ih h
    simp only [List.length_cons]
    omega
  | case4 => cases h
  | case5 a b c d n hn _ a' b' c' d' rest' ch hc ih =>
    have := length_of_map_cons ih h
    simp only [List.length_cons]
    omega
  | case6 => cases h
  | case7 => cases h
  | case8 c rest' _ ch hc ih =>
    have := length_of_map_cons ih h
    simp only [List.length_cons]
    omega
  | case9 => cases h
  | case10 c rest' _ _ _ _ ih =>
    have := length_of_map_cons ih h
    simp only [List.length_cons]
    omega
  | case11 => cases h

/-- Whether a text is a number as JSON writes it. -/
def isNumberLiteral (cs : List Char) : Bool :=
  let cs := if cs.head? = some '-' then cs.drop 1 else cs
  let whole := cs.takeWhile Char.isDigit
  let cs := cs.dropWhile Char.isDigit
  let fractionOk :=
    match cs with
    | '.' :: cs => cs.head?.any Char.isDigit
    | _ => true
  let cs := if cs.head? = some '.' then (cs.drop 1).dropWhile Char.isDigit else cs
  let exponentOk :=
    match cs with
    | [] => true
    | c :: cs =>
      let digits := if cs.head? = some '+' ∨ cs.head? = some '-' then cs.drop 1 else cs
      (c == 'e' || c == 'E') && !digits.isEmpty && digits.all Char.isDigit
  !whole.isEmpty && (whole.head? ≠ some '0' || whole.length = 1) && fractionOk && exponentOk

/-- Whether a character belongs to a number or a word. -/
def isBare (c : Char) : Bool := c.isAlphanum || c == '-' || c == '+' || c == '.'

/-- The value that a run of bare characters stands for. -/
def ofBare? (cs : List Char) : Option Json :=
  if cs = "null".toList then some .null
  else if cs = "true".toList then some (.bool true)
  else if cs = "false".toList then some (.bool false)
  else if isNumberLiteral cs then some (.number cs)
  else none

/-- A result of reading: a value and a rest that is shorter than the text. -/
abbrev Read (α : Type) (cs : List Char) :=
  Option (α × { rest : List Char // rest.length < cs.length })

mutual

/-- Reads a value. -/
def readValue (cs : List Char) : Read Json cs :=
  match hs : skipSpace cs with
  | [] => none
  | c :: rest =>
    have hlt : rest.length < cs.length := by
      have := length_skipSpace_le cs
      rw [hs, List.length_cons] at this
      omega
    if c = '"' then
      match ht : readStringTail rest with
      | none => none
      | some (s, rest') =>
        some (.string (String.ofList s),
          ⟨rest', by have := length_of_readStringTail ht; omega⟩)
    else if c = '[' then
      match hs' : skipSpace rest with
      | ']' :: rest' =>
        some (.array [], ⟨rest', by
          have := length_skipSpace_le rest
          rw [hs', List.length_cons] at this
          omega⟩)
      | _ =>
        (readItems rest).map fun (items, rest') =>
          (.array items, ⟨rest'.1, by have := rest'.2; omega⟩)
    else if c = '\x7b' then
      match hs' : skipSpace rest with
      | '\x7d' :: rest' =>
        some (.object [], ⟨rest', by
          have := length_skipSpace_le rest
          rw [hs', List.length_cons] at this
          omega⟩)
      | _ =>
        (readMembers rest).map fun (members, rest') =>
          (.object members, ⟨rest'.1, by have := rest'.2; omega⟩)
    else if isBare c then
      (ofBare? (c :: rest.takeWhile isBare)).map fun v =>
        (v, ⟨rest.dropWhile isBare, by
          have := congrArg List.length (List.takeWhile_append_dropWhile (p := isBare) (l := rest))
          simp only [List.length_append] at this
          omega⟩)
    else none
termination_by (cs.length, 0)

/-- Reads the items of an array, up to its closing bracket. -/
def readItems (cs : List Char) : Read (List Json) cs :=
  match readValue cs with
  | none => none
  | some (v, rest) =>
    have hlt := rest.2
    match hs : skipSpace rest.1 with
    | ']' :: rest' =>
      some ([v], ⟨rest', by
        have := length_skipSpace_le rest.1
        rw [hs, List.length_cons] at this
        omega⟩)
    | ',' :: rest' =>
      have hlt' : rest'.length < cs.length := by
        have := length_skipSpace_le rest.1
        rw [hs, List.length_cons] at this
        omega
      (readItems rest').map fun (vs, rest'') =>
        (v :: vs, ⟨rest''.1, by have := rest''.2; omega⟩)
    | _ => none
termination_by (cs.length, 1)

/-- Reads the members of an object, up to its closing brace. -/
def readMembers (cs : List Char) : Read (List (String × Json)) cs :=
  match hs : skipSpace cs with
  | '"' :: rest =>
    match ht : readStringTail rest with
    | none => none
    | some (k, rest') =>
      match hc : skipSpace rest' with
      | ':' :: rest'' =>
        have hlt : rest''.length < cs.length := by
          have h1 := length_skipSpace_le cs
          have h2 := length_of_readStringTail ht
          have h3 := length_skipSpace_le rest'
          rw [hs, List.length_cons] at h1
          rw [hc, List.length_cons] at h3
          omega
        match readValue rest'' with
        | none => none
        | some (v, rest) =>
          have hv := rest.2
          match he : skipSpace rest.1 with
          | '\x7d' :: rest' =>
            some ([(String.ofList k, v)], ⟨rest', by
              have := length_skipSpace_le rest.1
              rw [he, List.length_cons] at this
              omega⟩)
          | ',' :: rest' =>
            have hlt' : rest'.length < cs.length := by
              have := length_skipSpace_le rest.1
              rw [he, List.length_cons] at this
              omega
            (readMembers rest').map fun (ms, rest'') =>
              ((String.ofList k, v) :: ms, ⟨rest''.1, by have := rest''.2; omega⟩)
          | _ => none
      | _ => none
  | _ => none
termination_by (cs.length, 2)

end

/-- Reads a text that is one value. -/
def read? (s : String) : Option Json := do
  let (v, rest) ← readValue s.toList
  if skipSpace rest.1 = [] then some v else none

/-! ### Looking into values -/

def string? : Json → Option String
  | .string s => some s
  | _ => none

def bool? : Json → Option Bool
  | .bool b => some b
  | _ => none

def array? : Json → Option (List Json)
  | .array items => some items
  | _ => none

def object? : Json → Option (List (String × Json))
  | .object members => some members
  | _ => none

/-- The value of a number that is written with digits alone and takes at most 64 bits. -/
def count? : Json → Option Nat
  | .number literal =>
    if literal.all Char.isDigit then
      let n := literal.foldl (fun n c => 10 * n + (c.toNat - '0'.toNat)) 0
      if n < Nat.pow 2 64 then some n else none
    else none
  | _ => none

/-- The member of that name of an object, if there is exactly one. -/
def member? (members : List (String × Json)) (name : String) : Option Json :=
  match members.filter (·.1 = name) with
  | [(_, value)] => some value
  | _ => none

/-- The values of a record's fields, in the order of the given names: from an object, whose other
members do not count, or from an array with a value for each field. -/
def fields? (names : List String) : Json → Option (List Json)
  | .object members => names.mapM (member? members)
  | .array items => if items.length = names.length then some items else none
  | _ => none

end Json

end PageMend
