import PageMend.Yaml.Fault
import PageMend.Yaml.Gap

/-!
# Scalars

A scalar is a piece of text, written in one of five styles. `readPlain` reads words as they stand,
`readQuoted` what stands between quotation marks, and `readBlock` the indented lines below a
header. Each answers with the text and with what follows.
-/

namespace PageMend.Yaml

inductive Style where
  | plain | singleQuoted | doubleQuoted | literal | folded
  deriving DecidableEq, Repr

/-! ### Plain -/

/-- Where a scalar stands: between brackets or not, and the column at which its lines may start. -/
structure Setting where
  inFlow : Bool
  margin : Nat
  deriving DecidableEq, Repr

/-- The characters that have a meaning between brackets. -/
def isFlowIndicator (c : Char) : Bool :=
  c == ',' || c == '[' || c == ']' || c == '{' || c == '}'

/-- Whether a colon may not stand between brackets, by what follows it. -/
def colonIsLost : List Placed → Bool
  | [] => false
  | p :: _ => isFlowIndicator p.char || p.char == '?'

/-- Whether a plain scalar ends in front of a character. -/
def endsPlain (setting : Setting) (gap : Gap) (p : Placed) (rest : List Placed) : Bool :=
  (gap.isBroken && !setting.inFlow && p.mark.column < setting.margin) ||
    atSeparator (p :: rest) ||
    (p.char == '#' && gap != .none) ||
    (p.char == ':' && atGap rest) ||
    (setting.inFlow && isFlowIndicator p.char)

/-- A plain scalar: its text, what follows it, and whether lines end between the two. -/
structure PlainText where
  text : List Char
  endsLine : Bool
  rest : List Placed
  deriving DecidableEq, Repr

/-- The scalar with more text in front. -/
def PlainText.prepend (cs : List Char) (t : PlainText) : PlainText :=
  { t with text := cs ++ t.text }

/-- Reads the words of a plain scalar that began at `start`, behind a gap. -/
def readPlain (setting : Setting) (start : Mark) (gap : Gap) :
    List Placed → Except Fault PlainText
  | [] => .ok ⟨[], gap.isBroken, []⟩
  | p :: rest =>
    if isBlank p.char then
      if gap.isBroken ∧ p.char = '\t' ∧ p.mark.column < setting.margin then
        .error (.inside .plainScalar start .tabInPlain p.mark)
      else readPlain setting start (gap.blank p.char) rest
    else if isBreak p.char then readPlain setting start (gap.lineBreak p.char) rest
    else if setting.inFlow ∧ p.char = ':' ∧ colonIsLost rest then
      .error (.inside .plainScalar start .colonInFlow p.mark)
    else if endsPlain setting gap p rest then .ok ⟨[], gap.isBroken, p :: rest⟩
    else (readPlain setting start .none rest).map (.prepend (gap.text ++ [p.char]))

/-! ### Quoted -/

/-- The escapes of one letter. -/
def escaped? (c : Char) : Option Char :=
  match c with
  | '0' => some '\x00'
  | 'a' => some '\x07'
  | 'b' => some '\x08'
  | 't' | '\t' => some '\t'
  | 'n' => some '\n'
  | 'v' => some '\x0b'
  | 'f' => some '\x0c'
  | 'r' => some '\r'
  | 'e' => some '\x1b'
  | ' ' => some ' '
  | '"' => some '"'
  | '/' => some '/'
  | '\\' => some '\\'
  | 'N' => some '\u0085'
  | '_' => some '\u00a0'
  | 'L' => some '\u2028'
  | 'P' => some '\u2029'
  | _ => none

/-- The value of a hexadecimal digit. -/
def hexValue? (c : Char) : Option Nat :=
  if c.isDigit then some (c.toNat - 48)
  else if 'a' ≤ c ∧ c ≤ 'f' then some (c.toNat - 87)
  else if 'A' ≤ c ∧ c ≤ 'F' then some (c.toNat - 55)
  else none

/-- The character with a number in hexadecimal digits. -/
def characterOf (digits : List Placed) : Except Problem Char :=
  match (textOf digits).mapM hexValue? with
  | none => .error .escapeDigit
  | some values =>
    let n := values.foldl (fun n d => 16 * n + d) 0
    if n.isValidChar then .ok (Char.ofNat n) else .error .escapeCode

/-- Reads the character with a number in so many digits. -/
def readNumbered (count : Nat) (start finish : Mark) (cs : List Placed) :
    Except Fault (Char × List Placed) :=
  if cs.length < count then .error (.inside .escape start .escapeDigit (markOf finish cs))
  else
    match characterOf (cs.take count) with
    | .error problem => .error (.inside .escape start problem (markOf finish cs))
    | .ok c => .ok (c, cs.drop count)

/-- Reads what stands behind a backslash at `mark`: a character, or none where a line break is taken
back. -/
def readEscape (start finish mark : Mark) : List Placed → Except Fault (Option Char × List Placed)
  | [] => .error (.inside .escape start .unknownEscape mark)
  | e :: rest =>
    let numbered (count : Nat) : Except Fault (Option Char × List Placed) :=
      (readNumbered count start finish rest).map fun (c, rest) => (some c, rest)
    if isBreak e.char then .ok (none, rest)
    else if e.char = 'x' then numbered 2
    else if e.char = 'u' then numbered 4
    else if e.char = 'U' then numbered 8
    else
      match escaped? e.char with
      | some c => .ok (some c, rest)
      | none => .error (.inside .escape start .unknownEscape mark)

theorem length_of_readNumbered {count : Nat} {start finish : Mark} {cs rest : List Placed}
    {c : Char} (h : readNumbered count start finish cs = .ok (c, rest)) :
    rest.length ≤ cs.length := by
  unfold readNumbered at h
  split at h
  · cases h
  · split at h
    · cases h
    · cases h
      rw [List.length_drop]
      omega

theorem length_of_readEscape {start finish mark : Mark} {cs rest : List Placed} {c : Option Char}
    (h : readEscape start finish mark cs = .ok (c, rest)) : rest.length ≤ cs.length := by
  have hnumbered : ∀ {count : Nat} {cs : List Placed},
      (readNumbered count start finish cs).map (fun (c, rest) => (some c, rest)) = .ok (c, rest) →
        rest.length ≤ cs.length := by
    intro count cs h
    cases hr : readNumbered count start finish cs with
    | error fault =>
      rw [hr] at h
      cases h
    | ok read =>
      rw [hr] at h
      cases h
      exact length_of_readNumbered hr
  cases cs with
  | nil => cases h
  | cons e cs =>
    refine Nat.le_succ_of_le ?_
    simp only [readEscape] at h
    split at h
    · cases h
      exact Nat.le_refl _
    split at h
    · exact hnumbered h
    split at h
    · exact hnumbered h
    split at h
    · exact hnumbered h
    split at h
    · cases h
      exact Nat.le_refl _
    · cases h

theorem length_of_after? {c : Char} {cs rest : List Placed} (h : after? c cs = some rest) :
    rest.length ≤ cs.length := by
  unfold after? at h
  split at h
  · cases h
  · split at h
    · cases h
      exact Nat.le_succ _
    · cases h

/-- A text and what follows it. -/
abbrev Cut := List Char × List Placed

/-- The text with more in front. -/
def Cut.prepend (cs : List Char) (t : Cut) : Cut := (cs ++ t.1, t.2)

/-- Reads the text between quotation marks up to the closing one, behind a gap. -/
def readQuoted (double : Bool) (start finish : Mark) (gap : Gap) : List Placed → Except Fault Cut
  | [] => .error (.inside .quotedScalar start .unclosedQuotes finish)
  | p :: rest =>
    if atSeparator (p :: rest) then
      .error (.inside .quotedScalar start .separatorInQuotes p.mark)
    else if isBlank p.char then readQuoted double start finish (gap.blank p.char) rest
    else if isBreak p.char then readQuoted double start finish (gap.lineBreak p.char) rest
    else if double then
      if p.char = '"' then .ok (gap.text, rest)
      else if p.char = '\\' then
        match _h : readEscape start finish p.mark rest with
        | .error fault => .error fault
        | .ok (none, after) =>
          (readQuoted double start finish (.joined []) after).map (.prepend gap.text)
        | .ok (some c, after) =>
          (readQuoted double start finish .none after).map (.prepend (gap.text ++ [c]))
      else (readQuoted double start finish .none rest).map (.prepend (gap.text ++ [p.char]))
    else if p.char = '\'' then
      match _h : after? '\'' rest with
      | some after =>
        (readQuoted double start finish .none after).map (.prepend (gap.text ++ ['\'']))
      | none => .ok (gap.text, rest)
    else (readQuoted double start finish .none rest).map (.prepend (gap.text ++ [p.char]))
termination_by cs => cs.length
decreasing_by
  all_goals simp only [List.length_cons]
  · exact Nat.lt_succ_self _
  · exact Nat.lt_succ_self _
  · exact Nat.lt_succ_of_le (length_of_readEscape _h)
  · exact Nat.lt_succ_of_le (length_of_readEscape _h)
  · exact Nat.lt_succ_self _
  · exact Nat.lt_succ_of_le (length_of_after? _h)
  · exact Nat.lt_succ_self _

/-! ### Blocks -/

/-- What becomes of the line breaks at the end of a block. -/
inductive Chomp where
  | strip | clip | keep
  deriving DecidableEq, Repr

def Chomp.ofIndicator? (c : Char) : Option Chomp :=
  if c = '-' then some .strip else if c = '+' then some .keep else none

/-- The header of a block: what becomes of its end, and by how many columns it is indented, if
that is said. -/
structure Header where
  chomp : Chomp := .clip
  increment : Option Nat := none
  deriving DecidableEq, Repr

/-- The chomping indicator that comes next, if there is one, and what follows it. -/
def takeChomp? : List Placed → Option (Chomp × List Placed)
  | [] => none
  | p :: rest => (Chomp.ofIndicator? p.char).map fun chomp => (chomp, rest)

/-- Takes an indentation indicator, if there is one. -/
def takeIncrement (h : Header) (start : Mark) :
    List Placed → Except Fault (Header × List Placed)
  | [] => .ok (h, [])
  | p :: rest =>
    if p.char = '0' then .error (.inside .blockScalar start .zeroIndentation p.mark)
    else if p.char.isDigit then .ok ({ h with increment := some (p.char.toNat - 48) }, rest)
    else .ok (h, p :: rest)

/-- Reads the indicators of a block. The two come in any order. -/
def readIndicators (start : Mark) (cs : List Placed) : Except Fault (Header × List Placed) :=
  match takeChomp? cs with
  | some (chomp, rest) => takeIncrement { chomp } start rest
  | none => do
    let (h, rest) ← takeIncrement {} start cs
    match h.increment, takeChomp? rest with
    | some _, some (chomp, rest) => return ({ h with chomp }, rest)
    | _, _ => return (h, rest)

/-- Reads the header of a block to the end of its line. -/
def readHeader (start finish : Mark) (cs : List Placed) :
    Except Fault (Header × List Placed) := do
  let (h, rest) ← readIndicators start cs
  let rest := skipComment (skipBlanks rest)
  if atLineEnd rest then return (h, skipBreak rest)
  else .error (.inside .blockScalar start .headerEnd (markOf finish rest))

/-- The column of the first line of a block that is not empty, or a greater one at which an empty
line ends. -/
def findIndentation (start : Mark) (widest : Nat) : List Placed → Except Fault Nat
  | [] => .ok widest
  | p :: rest =>
    if p.char = ' ' then findIndentation start (max widest (p.mark.column + 1)) rest
    else if p.char = '\t' then .error (.inside .blockScalar start .tabInIndentation p.mark)
    else if isBreak p.char then findIndentation start widest rest
    else .ok widest

/-- What stands between two lines of a block: the break that ends the first one, those of the
empty lines, and whether the first one starts with a blank. -/
structure Ending where
  lineBreak : List Char := []
  emptyLines : List Char := []
  blankLine : Bool := false
  deriving DecidableEq, Repr

/-- What an ending stands for in front of a next line. A folded block joins lines as a gap does,
but leaves the breaks around lines that start with a blank. -/
def Ending.text (folded : Bool) (e : Ending) (nextBlank : Bool) : List Char :=
  if folded ∧ e.lineBreak = ['\n'] ∧ !e.blankLine ∧ !nextBlank then
    (if e.emptyLines = [] then [' '] else []) ++ e.emptyLines
  else e.lineBreak ++ e.emptyLines

/-- What an ending stands for at the end of a block. -/
def Ending.tail (e : Ending) : Chomp → List Char
  | .strip => []
  | .clip => e.lineBreak
  | .keep => e.lineBreak ++ e.emptyLines

/-- Reads the lines of a block that are indented to a column. -/
def readLines (folded : Bool) (chomp : Chomp) (indentation : Nat) (start : Mark) (e : Ending)
    (inLine : Bool) : List Placed → Except Fault Cut
  | [] => .ok (e.tail chomp, [])
  | p :: rest =>
    if inLine then
      if isBreak p.char then
        readLines folded chomp indentation start { e with lineBreak := [p.char] } false rest
      else (readLines folded chomp indentation start e true rest).map (.prepend [p.char])
    else if p.mark.column < indentation ∧ p.char = ' ' then
      readLines folded chomp indentation start e false rest
    else if p.mark.column < indentation ∧ p.char = '\t' then
      .error (.inside .blockScalar start .tabInIndentation p.mark)
    else if isBreak p.char then
      readLines folded chomp indentation start { e with emptyLines := e.emptyLines ++ [p.char] }
        false rest
    else if p.mark.column < indentation then .ok (e.tail chomp, p :: rest)
    else
      let blank := isBlank p.char
      (readLines folded chomp indentation start { blankLine := blank } true rest).map
        (.prepend (e.text folded blank ++ [p.char]))

/-- Reads a block behind its indicator. `margin` is the least column for its lines. -/
def readBlock (folded : Bool) (margin : Nat) (start finish : Mark) (cs : List Placed) :
    Except Fault Cut := do
  let (h, cs) ← readHeader start finish cs
  let indentation ←
    match h.increment with
    | some n => .ok (margin - 1 + n)
    | none => (findIndentation start 0 cs).map (max · (max margin 1))
  readLines folded h.chomp indentation start {} false cs

end PageMend.Yaml
