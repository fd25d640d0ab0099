/-!
# A text laid out

YAML is read by place: indentation decides what belongs together, and a fault names its line and
column. `Layout.ofChars` gives every character its place. Line breaks that only differ in their
spelling become one line feed each, so that readers meet a single kind of it.
-/

namespace PageMend.Yaml

/-! ### Places -/

/-- A place in a text: the bytes in front of it, the lines in front of it, and the characters in
front of it on its line. -/
structure Mark where
  index : Nat := 0
  line : Nat := 0
  column : Nat := 0
  deriving DecidableEq, Repr, Inhabited

/-- The place behind a character of so many bytes on the same line. -/
def Mark.past (m : Mark) (width : Nat) : Mark :=
  { m with index := m.index + width, column := m.column + 1 }

/-- The place behind an indicator. -/
def Mark.right (m : Mark) : Mark := m.past 1

/-- The place behind a line break of so many bytes. -/
def Mark.below (m : Mark) (width : Nat) : Mark := ⟨m.index + width, m.line + 1, 0⟩

/-- The start of the next line, unless a line starts here. -/
def Mark.newLine (m : Mark) : Mark :=
  if m.column = 0 then m else { m with line := m.line + 1, column := 0 }

/-- Whether nothing stands in front of a place. Such a place is not worth mentioning. -/
def Mark.isStart (m : Mark) : Bool := m.line = 0 && m.column = 0

/-- Counts lines and columns from one. -/
def Mark.message (m : Mark) : String :=
  "line " ++ toString (m.line + 1) ++ " column " ++ toString (m.column + 1)

/-! ### Characters -/

/-- The characters that end a line, in a text that is laid out. -/
def isBreak (c : Char) : Bool := c == '\n' || c == '\u2028' || c == '\u2029'

/-- The blanks inside a line. -/
def isBlank (c : Char) : Bool := c == ' ' || c == '\t'

/-- The characters of names: of anchors, handles and directives. -/
def isNameCharacter (c : Char) : Bool := c.isAlphanum || c == '_' || c == '-'

def byteOrderMark : Char := '\ufeff'

/-- The characters that a YAML text may hold. -/
def isAllowed (c : Char) : Bool :=
  c == '\t' || c == '\n' || c == '\r' || c == '\u0085' ||
    (0x20 ≤ c.toNat && c.toNat ≠ 0x7F && !(0x80 ≤ c.toNat && c.toNat < 0xA0) &&
      c.toNat ≠ 0xFFFE && c.toNat ≠ 0xFFFF)

/-- A text is looked through for characters that are not allowed in portions of at most so many
bytes, each when reading gets there. -/
def portionLength : Nat := 16384

/-- A character that is not allowed. -/
structure Forbidden where
  /-- The bytes in front of it. -/
  offset : Nat
  /-- The characters in front of its portion. -/
  sound : Nat
  deriving DecidableEq, Repr

/-- The first character that is not allowed. `index` characters and `offset` bytes are in front;
the portion has `used` bytes so far, behind `sound` characters. -/
def findForbidden? (sound used index offset : Nat) : List Char → Option Forbidden
  | [] => none
  | c :: cs =>
    let size := c.utf8Size
    let (sound, used) := if portionLength < used + size then (index, 0) else (sound, used)
    if isAllowed c then findForbidden? sound (used + size) (index + 1) (offset + size) cs
    else some ⟨offset, sound⟩

def firstForbidden? (cs : List Char) : Option Forbidden := findForbidden? 0 0 0 0 cs

/-! ### Layouts -/

/-- A character at its place. -/
structure Placed where
  char : Char
  mark : Mark
  deriving DecidableEq, Repr, Inhabited

/-- The characters of a text at their places, and the place behind the last one. -/
structure Layout where
  chars : List Placed
  finish : Mark
  deriving DecidableEq, Repr

/-- The layout with one more character in front. -/
def Layout.cons (c : Char) (m : Mark) (l : Layout) : Layout := { l with chars := ⟨c, m⟩ :: l.chars }

/-- Lays out characters from a place on. -/
def Layout.ofChars (m : Mark) : List Char → Layout
  | [] => ⟨[], m⟩
  | '\r' :: '\n' :: cs => (Layout.ofChars (m.below 2) cs).cons '\n' m
  | c :: cs =>
    if c = '\r' ∨ c = '\u0085' then (Layout.ofChars (m.below c.utf8Size) cs).cons '\n' m
    else if isBreak c then (Layout.ofChars (m.below c.utf8Size) cs).cons c m
    else (Layout.ofChars (m.past c.utf8Size) cs).cons c m

/-! ### Looking ahead -/

/-- The place of the first of the given characters, which are the last ones of a text. -/
def markOf (finish : Mark) : List Placed → Mark
  | [] => finish
  | p :: _ => p.mark

/-- Whether a line ends here. -/
def atLineEnd : List Placed → Bool
  | [] => true
  | p :: _ => isBreak p.char

/-- Whether a blank follows, or the end of the line. -/
def atGap : List Placed → Bool
  | [] => true
  | p :: _ => isBlank p.char || isBreak p.char

/-- What follows a character, if it is the next one. -/
def after? (c : Char) : List Placed → Option (List Placed)
  | [] => none
  | p :: rest => if p.char = c then some rest else none

/-- Whether a line starts here with three times the given character, and nothing joined to it. -/
def atTriple (c : Char) : List Placed → Bool
  | p₁ :: p₂ :: p₃ :: rest =>
    p₁.mark.column = 0 && p₁.char = c && p₂.char = c && p₃.char = c && atGap rest
  | _ => false

/-- Whether a line that separates documents starts here. -/
def atSeparator (cs : List Placed) : Bool := atTriple '-' cs || atTriple '.' cs

/-- The characters without their places. -/
def textOf (cs : List Placed) : List Char := cs.map Placed.char

/-- Behind the blanks of a line. -/
def skipBlanks (cs : List Placed) : List Placed := cs.dropWhile (isBlank ·.char)

/-- Behind the rest of a line. -/
def skipLine (cs : List Placed) : List Placed := cs.dropWhile (!isBreak ·.char)

/-- Behind a comment, if there is one. -/
def skipComment (cs : List Placed) : List Placed :=
  if (after? '#' cs).isSome then skipLine cs else cs

/-- Behind a line break, if there is one. -/
def skipBreak (cs : List Placed) : List Placed :=
  match cs with
  | p :: rest => if isBreak p.char then rest else cs
  | [] => []

end PageMend.Yaml
