import PageMend.Yaml.Meaning
import PageMend.Yaml.Scalar

/-!
# Writing strings

`scalar` writes a string so that it is read back as it is. Of the styles that can hold it, the
plainest is taken: a text of several lines becomes a literal block, other texts stand plain; what
would mean something else is put into single quotation marks, and what has characters that are not
to be seen into double ones.
-/

namespace PageMend.Yaml

namespace Written

/-! ### What a style can hold -/

/-- The characters that may stand in a text as they are. -/
def isPrintable (c : Char) : Bool :=
  c == '\n' || (isAllowed c && c != '\t' && c != '\r' && c != '\u0085' && c != byteOrderMark)

/-- Whether a blank, a line break or the end comes next. -/
def atGap : List Char → Bool
  | [] => true
  | c :: _ => isBlank c || isBreak c

/-- Whether a character with a property is followed by one with another property. -/
def hasPair (first second : Char → Bool) : List Char → Bool
  | a :: b :: cs => (first a && second b) || hasPair first second (b :: cs)
  | _ => false

def isSpace (c : Char) : Bool := c == ' '

def hasSpaceBeforeBreak (cs : List Char) : Bool := hasPair isSpace isBreak cs

def hasSpaceAfterBreak (cs : List Char) : Bool := hasPair isBreak isSpace cs

def startsWith (p : Char → Bool) (cs : List Char) : Bool := (cs.head?.map p).getD false

def endsWith (p : Char → Bool) (cs : List Char) : Bool := (cs.getLast?.map p).getD false

/-- Whether the first character would mean something in front of the others. -/
def startsWithIndicator : List Char → Bool
  | [] => false
  | c :: cs =>
    "#,[]\x7b\x7d&*!|>'\"%@`".toList.contains c || ("?:-".toList.contains c && atGap cs)

/-- Whether a colon in front of a gap, or a number sign behind one, stands in a text. -/
def hasIndicator (behindGap : Bool) : List Char → Bool
  | [] => false
  | c :: cs =>
    (c == ':' && atGap cs) || (c == '#' && behindGap) ||
      hasIndicator (isBlank c || isBreak c) cs

/-- Whether a text can stand plain. -/
def canBePlain (cs : List Char) : Bool :=
  cs.all isPrintable && !cs.any isBreak && !startsWith isSpace cs && !endsWith isSpace cs &&
    !"---".toList.isPrefixOf cs && !"...".toList.isPrefixOf cs &&
    !startsWithIndicator cs && !hasIndicator true cs

/-- Whether a text can stand in single quotation marks. -/
def canBeSingleQuoted (cs : List Char) : Bool :=
  cs.all isPrintable && !hasSpaceBeforeBreak cs && !hasSpaceAfterBreak cs

/-- Whether a text can stand in a literal block. -/
def canBeLiteral (cs : List Char) : Bool :=
  cs.all isPrintable && !hasSpaceBeforeBreak cs && !endsWith isSpace cs

/-- Whether a text would not be read as a text if it stood plain. -/
def isAmbiguous (s : String) : Bool :=
  Meaning.ofText s ≠ .text || hasSpareZero (Number.takeSign s.toList).2

/-- The style in which a text is written. -/
def styleOf (s : String) : Style :=
  let cs := s.toList
  if cs.contains '\n' then if canBeLiteral cs then .literal else .doubleQuoted
  else if canBePlain cs && !isAmbiguous s then .plain
  else if canBeSingleQuoted cs then .singleQuoted
  else .doubleQuoted

/-! ### The styles -/

def spaces (n : Nat) : List Char := List.replicate n ' '

/-- Single quotation marks are doubled. A line feed at the end of a line is doubled, too, since a
single one would be read as a space. -/
def singleQuotedFrom (indentation : Nat) (behindBreak : Bool) : List Char → List Char
  | [] => if behindBreak then spaces indentation else []
  | c :: cs =>
    if isBreak c then
      (if c = '\n' ∧ !behindBreak then ['\n'] else []) ++
        c :: singleQuotedFrom indentation true cs
    else
      (if behindBreak then spaces indentation else []) ++ (if c = '\'' then ['\''] else []) ++
        c :: singleQuotedFrom indentation false cs

def singleQuoted (indentation : Nat) (cs : List Char) : List Char :=
  '\'' :: singleQuotedFrom indentation false cs ++ ['\'']

/-- The letter of an escape, for the characters that have one. -/
def escapeLetter? (c : Char) : Option Char :=
  match c with
  | '\x00' => some '0'
  | '\x07' => some 'a'
  | '\x08' => some 'b'
  | '\t' => some 't'
  | '\n' => some 'n'
  | '\x0b' => some 'v'
  | '\x0c' => some 'f'
  | '\r' => some 'r'
  | '\x1b' => some 'e'
  | '"' => some '"'
  | '\\' => some '\\'
  | '\u0085' => some 'N'
  | '\u2028' => some 'L'
  | '\u2029' => some 'P'
  | _ => none

/-- Hexadecimal digits in upper case, with zeros in front up to a length. -/
def hexDigits (length n : Nat) : List Char :=
  let digits := (Nat.toDigits 16 n).map Char.toUpper
  List.replicate (length - digits.length) '0' ++ digits

/-- One character between double quotation marks. -/
def doubleQuotedCharacter (c : Char) : List Char :=
  match escapeLetter? c with
  | some letter => ['\\', letter]
  | none =>
    if isPrintable c then [c]
    else if c.toNat ≤ 0xFF then '\\' :: 'x' :: hexDigits 2 c.toNat
    else if c.toNat ≤ 0xFFFF then '\\' :: 'u' :: hexDigits 4 c.toNat
    else '\\' :: 'U' :: hexDigits 8 c.toNat

def doubleQuoted (cs : List Char) : List Char :=
  '"' :: cs.flatMap doubleQuotedCharacter ++ ['"']

/-- What the header of a literal block says about its end: nothing if the text ends in one line
break, otherwise that there is none, or that all count. -/
def chompIndicator (cs : List Char) : List Char :=
  match cs.reverse with
  | [] => ['-']
  | [c] => if isBreak c then ['+'] else ['-']
  | c :: d :: _ => if !isBreak c then ['-'] else if isBreak d then ['+'] else []

/-- The lines of a literal block. Empty lines are not indented. -/
def literalFrom (indentation : Nat) (atStart : Bool) : List Char → List Char
  | [] => []
  | c :: cs =>
    if isBreak c then c :: literalFrom indentation true cs
    else (if atStart then spaces indentation else []) ++ c :: literalFrom indentation false cs

/-- The number of columns by which blocks are indented. -/
def step : Nat := 2

/-- A literal block. The header says how far the text is indented where its first line does not
show it. -/
def literal (indentation : Nat) (cs : List Char) : List Char :=
  let hint := if startsWith isSpace cs || startsWith isBreak cs then (toString step).toList else []
  '|' :: hint ++ chompIndicator cs ++ '\n' :: literalFrom indentation true cs

/-- The string as a scalar of which further lines are indented to a column. -/
def scalar (indentation : Nat) (s : String) : List Char :=
  let cs := s.toList
  match styleOf s with
  | .plain => cs
  | .singleQuoted => singleQuoted indentation cs
  | .literal | .folded => literal indentation cs
  | .doubleQuoted => doubleQuoted cs

/-- Ends a line, unless a line break ends it already. -/
def endLine (cs : List Char) : List Char := if endsWith isBreak cs then cs else cs ++ ['\n']

/-! ### Entries -/

/-- A key and a string behind some columns, as whole lines. `lead` takes the place of the columns
on the first line. -/
def entryAfter (lead : String) (key value : String) : String :=
  lead ++ key ++ ": " ++ String.ofList (endLine (scalar (lead.length + step) value))

/-- A key and a string behind some columns. -/
def entry (column : Nat) (key value : String) : String :=
  entryAfter (String.ofList (spaces column)) key value

/-- A key and a truth value. -/
def flag (column : Nat) (key : String) (value : Bool) : String :=
  String.ofList (spaces column) ++ key ++ ": " ++ (if value then "true" else "false") ++ "\n"

/-- A key whose value is written on the lines below. -/
def heading (column : Nat) (key : String) : String :=
  String.ofList (spaces column) ++ key ++ ":\n"

end Written

end PageMend.Yaml
