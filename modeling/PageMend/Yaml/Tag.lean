import PageMend.Yaml.Token

/-!
# Names, tags and directives

A tag is a handle, which stands for the beginning of a URI, and the rest of that URI. `readTag`
reads the three ways in which one is written, `readDirective` the lines that declare handles and
the version.
-/

namespace PageMend.Yaml

/-! ### Anchors and aliases -/

/-- Whether the name of an anchor may end in front of a character. -/
def endsName : List Placed → Bool
  | [] => true
  | p :: _ => isBlank p.char || isBreak p.char || "?:,]\x7d%@`".toList.contains p.char

/-- Reads the name of an anchor or alias that began at `start`. -/
def readName (context : Context) (start finish : Mark) (cs : List Placed) :
    Except Fault (String × List Placed) :=
  let name := textOf (cs.takeWhile (isNameCharacter ·.char))
  let rest := cs.dropWhile (isNameCharacter ·.char)
  if name ≠ [] ∧ endsName rest then .ok (String.ofList name, rest)
  else .error (.inside context start .nameMissing (markOf finish rest))

/-! ### URIs -/

/-- Whether a tag is being read, or the directive that declares a handle. -/
inductive TagPlace where
  | token | directive
  deriving DecidableEq, Repr

def TagPlace.uriContext : TagPlace → Context
  | .token => .tagUri
  | .directive => .tagDirectiveUri

def TagPlace.handleContext : TagPlace → Context
  | .token => .tag
  | .directive => .tagDirectiveHandle

/-- The characters of a URI. Where nothing else limits it, it may also hold commas and square
brackets. -/
def isUriCharacter (bounded : Bool) (c : Char) : Bool :=
  isNameCharacter c || ";/?:@&=+$.!~*'()".toList.contains c ||
    (bounded && ",[]".toList.contains c)

/-- The number of bytes of a character, by the first one. -/
def octetsOf? (first : Nat) : Option Nat :=
  if first < 0x80 then some 1
  else if first / 0x20 = 6 then some 2
  else if first / 0x10 = 14 then some 3
  else if first / 0x08 = 30 then some 4
  else none

/-- Reads a URI. An escaped byte stands for the character with its number; `expected` more bytes
belong to the character that was begun. -/
def readUri (place : TagPlace) (bounded : Bool) (start finish : Mark) (expected : Nat) :
    List Placed → Except Fault Cut
  | [] =>
    if expected = 0 then .ok ([], [])
    else .error (.inside place.uriContext start .uriOctet finish)
  | p :: rest =>
    let refuse (problem : Problem) := Except.error (.inside place.uriContext start problem p.mark)
    if p.char = '%' then
      match rest with
      | a :: b :: after =>
        match hexValue? a.char, hexValue? b.char with
        | some high, some low =>
          let octet := 16 * high + low
          let prepend (t : Except Fault Cut) := t.map (.prepend [Char.ofNat octet])
          if expected = 0 then
            match octetsOf? octet with
            | some n => prepend (readUri place bounded start finish (n - 1) after)
            | none => refuse .uriLeadingOctet
          else if octet / 0x40 = 2 then
            prepend (readUri place bounded start finish (expected - 1) after)
          else refuse .uriTrailingOctet
        | _, _ => refuse .uriOctet
      | _ => refuse .uriOctet
    else if expected ≠ 0 then refuse .uriOctet
    else if isUriCharacter bounded p.char then
      (readUri place bounded start finish 0 rest).map (.prepend [p.char])
    else .ok ([], p :: rest)

/-- Reads a URI that is not empty. -/
def readSomeUri (place : TagPlace) (bounded : Bool) (start finish : Mark) (cs : List Placed) :
    Except Fault Cut := do
  let (uri, rest) ← readUri place bounded start finish 0 cs
  if uri.isEmpty then .error (.inside place.uriContext start .tagUri (markOf finish rest))
  else return (uri, rest)

/-- The text of a URI, which ends at its first NUL. -/
def uriText (uri : List Char) : String := String.ofList (uri.takeWhile (· ≠ '\x00'))

/-! ### Handles -/

/-- Reads an exclamation mark, a name and a second exclamation mark. A tag may go on without the
second one; a directive only where the name is empty. -/
def readHandle (place : TagPlace) (start finish : Mark) (cs : List Placed) : Except Fault Cut :=
  match after? '!' cs with
  | none => .error (.inside place.handleContext start .tagBang (markOf finish cs))
  | some cs =>
    let name := textOf (cs.takeWhile (isNameCharacter ·.char))
    let rest := cs.dropWhile (isNameCharacter ·.char)
    match after? '!' rest with
    | some rest => .ok ('!' :: name ++ ['!'], rest)
    | none =>
      if place = .directive ∧ name ≠ [] then
        .error (.inside .tagDirectiveEnd start .tagBang (markOf finish rest))
      else .ok ('!' :: name, rest)

/-- Whether a text is a whole handle: it has an exclamation mark at both ends. -/
def isWholeHandle (handle : List Char) : Bool :=
  2 ≤ handle.length && handle.getLast? == some '!'

/-! ### Tags -/

/-- Reads a tag at its exclamation mark, without regard to what follows it. -/
def readTagText (start finish : Mark) (cs : List Placed) :
    Except Fault (Sign × List Placed) := do
  match (after? '!' cs).bind (after? '<') with
  | some cs =>
    let (uri, rest) ← readSomeUri .token true start finish cs
    match after? '>' rest with
    | some rest => return (.tag "" (uriText uri), rest)
    | none => .error (.inside .tag start .tagClose (markOf finish rest))
  | none =>
    let (handle, rest) ← readHandle .token start finish cs
    if isWholeHandle handle then
      let (suffix, rest) ← readSomeUri .token false start finish rest
      return (.tag (String.ofList handle) (uriText suffix), rest)
    else
      let (uri, rest) ← readUri .token false start finish 0 rest
      let suffix := uriText (handle.drop 1 ++ uri)
      return (if suffix = "" then .tag "" "!" else .tag "!" suffix, rest)

/-- Reads a tag at its exclamation mark. -/
def readTag (inFlow : Bool) (start finish : Mark) (cs : List Placed) :
    Except Fault (Sign × List Placed) := do
  let (sign, rest) ← readTagText start finish cs
  if atGap rest ∨ (inFlow ∧ (after? ',' rest).isSome) then return (sign, rest)
  else .error (.inside .tag start .tagEnd (markOf finish rest))

/-! ### Directives -/

/-- A part of a version has at most this many digits. -/
def maxVersionDigits : Nat := 9

/-- Reads a part of a version. -/
def readVersionNumber (start finish : Mark) (cs : List Placed) :
    Except Fault (Nat × List Placed) :=
  let digits := cs.takeWhile (·.char.isDigit)
  if digits.isEmpty then
    .error (.inside .versionDirective start .versionDigit (markOf finish cs))
  else if maxVersionDigits < digits.length then
    .error (.inside .versionDirective start .versionLength
      (markOf finish (cs.drop maxVersionDigits)))
  else
    .ok (digits.foldl (fun n p => 10 * n + (p.char.toNat - 48)) 0,
      cs.dropWhile (·.char.isDigit))

/-- Reads the version behind the name of its directive. -/
def readVersion (start finish : Mark) (cs : List Placed) :
    Except Fault (Directive × List Placed) := do
  let (major, rest) ← readVersionNumber start finish (skipBlanks cs)
  match after? '.' rest with
  | none => .error (.inside .versionDirective start .versionPoint (markOf finish rest))
  | some rest =>
    let (minor, rest) ← readVersionNumber start finish rest
    return (.version major minor, rest)

/-- Reads a handle and its meaning behind the name of their directive. -/
def readTagDeclaration (start finish : Mark) (cs : List Placed) :
    Except Fault (Directive × List Placed) := do
  let (handle, rest) ← readHandle .directive start finish (skipBlanks cs)
  let expectGap (ok : Bool) (problem : Problem) (rest : List Placed) : Except Fault Unit :=
    if ok then .ok () else .error (.inside .tagDirective start problem (markOf finish rest))
  expectGap (atGap rest && !atLineEnd rest) .tagSpace rest
  let (uri, rest) ← readSomeUri .directive true start finish (skipBlanks rest)
  expectGap (atGap rest) .tagEnd rest
  return (.tag (String.ofList handle) (uriText uri), rest)

/-- Reads a directive behind its percent sign, with the whole line. -/
def readDirective (start finish : Mark) (cs : List Placed) :
    Except Fault (Directive × List Placed) := do
  let refuse (problem : Problem) (rest : List Placed) : Except Fault (Directive × List Placed) :=
    .error (.inside .directive start problem (markOf finish rest))
  let name := String.ofList (textOf (cs.takeWhile (isNameCharacter ·.char)))
  let rest := cs.dropWhile (isNameCharacter ·.char)
  if name = "" then refuse .directiveName rest
  else if !atGap rest then refuse .directiveNameEnd rest
  else
    let (directive, rest) ←
      if name = "YAML" then readVersion start finish rest
      else if name = "TAG" then readTagDeclaration start finish rest
      else refuse .unknownDirective rest
    let rest := skipComment (skipBlanks rest)
    if atLineEnd rest then return (directive, skipBreak rest)
    else refuse .directiveEnd rest

end PageMend.Yaml
