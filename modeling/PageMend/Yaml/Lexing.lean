import PageMend.Yaml.Tag

/-!
# The tokens of a text

`tokens` splits a text into tokens. What makes this more than a walk from left to right is that a
key is known by the colon behind it: a token that may turn out to be a key is remembered as a
`Candidate`, and its key token is put in front of it when the colon comes. A candidate has to be
followed by its colon on the same line, and soon.

A text that is faulty has tokens up to the fault, but not beyond the first token that may still
become a key: whether a key token belongs in front of it cannot be told any more.

A character that no YAML text holds makes its whole portion of the text unreadable. The portions in
front of it are read all the same, as far as no token has to look behind them.
-/

namespace PageMend.Yaml

/-- A token that becomes a key if a colon follows it. -/
structure Candidate where
  /-- The number of tokens in front of it. -/
  place : Nat
  mark : Mark
  /-- Whether it stands where nothing but a key can stand. -/
  required : Bool
  deriving DecidableEq, Repr

/-- A colon has to follow within so many bytes. -/
def maxKeyLength : Nat := 1024

/-- Whether a candidate is out of reach for a colon at a place. -/
def Candidate.isStale (c : Candidate) (here : Mark) : Bool :=
  c.mark.line < here.line || c.mark.index + maxKeyLength < here.index

/-- How far a text has been read. -/
structure Lexing where
  rest : List Placed
  /-- The place behind the text. -/
  finish : Mark
  /-- Why reading cannot get there, if it cannot. -/
  barrier : Option Fault := none
  tokens : List Token := []
  /-- The columns of the open blocks, innermost first. -/
  indents : List Nat := []
  /-- The candidate between the innermost brackets. -/
  candidate : Option Candidate := none
  /-- The candidates outside of these brackets, one for each pair of brackets, innermost first. -/
  outer : List (Option Candidate) := []
  /-- Whether a key may start here. -/
  keyAllowed : Bool := true
  deriving DecidableEq, Repr

namespace Lexing

def here (s : Lexing) : Mark := markOf s.finish s.rest

/-- Whether brackets are open. -/
def inFlow (s : Lexing) : Bool := !s.outer.isEmpty

/-- The least column for the content of the innermost block. -/
def margin (s : Lexing) : Nat :=
  match s.indents with
  | [] => 0
  | column :: _ => column + 1

def add (s : Lexing) (sign : Sign) (mark : Mark) : Lexing :=
  { s with tokens := s.tokens ++ [⟨sign, mark⟩] }

/-! ### Candidates -/

/-- The candidates, outermost first. -/
def candidates (s : Lexing) : List Candidate := (s.candidate :: s.outer).reverse.reduceOption

/-- The number of tokens that stay as they are, whatever follows. -/
def settled (s : Lexing) : Nat :=
  match s.candidates with
  | [] => s.tokens.length
  | c :: _ => c.place

/-- The fault of a key that has no colon by now. -/
def lostKey (s : Lexing) (c : Candidate) : Fault :=
  .inside .simpleKey c.mark .keyWithoutColon s.here

/-- Gives up the candidates that are out of reach. -/
def expire (s : Lexing) : Except Fault Lexing :=
  match s.candidates.find? fun c => c.isStale s.here && c.required with
  | some c => .error (s.lostKey c)
  | none =>
    let keep (c : Option Candidate) := c.filter (!·.isStale s.here)
    .ok { s with candidate := keep s.candidate, outer := s.outer.map keep }

/-- Gives up the innermost candidate. -/
def dropCandidate (s : Lexing) : Except Fault Lexing :=
  match s.candidate with
  | some c => if c.required then .error (s.lostKey c) else .ok { s with candidate := none }
  | none => .ok s

/-- Makes the next token a candidate, if a key may start here. -/
def noteCandidate (s : Lexing) : Except Fault Lexing :=
  if s.keyAllowed then do
    let required := !s.inFlow && s.indents.head? == some s.here.column
    let s' ← s.dropCandidate
    return { s' with candidate := some ⟨s.tokens.length, s.here, required⟩ }
  else .ok s

/-! ### Blocks -/

/-- Whether a block that starts at a column would lie inside the innermost one. -/
def opensBlock (s : Lexing) (column : Nat) : Bool := !s.inFlow && s.margin ≤ column

/-- Opens a block at a column, with its token at a place in the list of tokens. -/
def openBlock (s : Lexing) (sign : Sign) (mark : Mark) (place : Nat) : Lexing :=
  if s.opensBlock mark.column then
    { s with
      indents := mark.column :: s.indents
      tokens := s.tokens.insertIdx place ⟨sign, mark⟩ }
  else s

/-- The columns of the blocks that lie at or left of a column, and a token for each of the
others. -/
def closeTo (ends : Nat → Bool) (mark : Mark) : List Nat → List Nat × List Token
  | [] => ([], [])
  | column :: outer =>
    if ends column then
      let (indents, tokens) := closeTo ends mark outer
      (indents, ⟨.blockEnd, mark⟩ :: tokens)
    else (column :: outer, [])

/-- Closes the innermost blocks whose columns are to be ended. -/
def closeBlocks (s : Lexing) (ends : Nat → Bool) (mark : Mark) : Lexing :=
  if s.inFlow then s
  else
    let (indents, ended) := closeTo ends mark s.indents
    { s with indents, tokens := s.tokens ++ ended }

/-! ### Between tokens -/

/-- Behind blanks, comments and line breaks, and whether a key may start there. Between brackets,
and behind a token that allows no key, tabs are blanks too. -/
def skipGap (inFlow keyAllowed inComment : Bool) : List Placed → List Placed × Bool
  | [] => ([], keyAllowed)
  | p :: rest =>
    if isBreak p.char then skipGap inFlow (keyAllowed || !inFlow) false rest
    else if inComment then skipGap inFlow keyAllowed true rest
    else if p.char = ' ' ∨ (p.char = '\t' ∧ (inFlow || !keyAllowed)) ∨
        (p.char = byteOrderMark ∧ p.mark.column = 0) then
      skipGap inFlow keyAllowed false rest
    else if p.char = '#' then skipGap inFlow keyAllowed true rest
    else (p :: rest, keyAllowed)

/-- Goes to the next token. Blocks that lie right of it end here. -/
def approach (s : Lexing) : Except Fault Lexing := do
  let (rest, keyAllowed) := skipGap s.inFlow s.keyAllowed false s.rest
  let s ← { s with rest, keyAllowed }.expire
  return s.closeBlocks (s.here.column < ·) s.here

/-- Ends all blocks, as at the start and at the end of a document. -/
def endDocument (s : Lexing) (mark : Mark) : Except Fault Lexing := do
  let s ← (s.closeBlocks (fun _ => true) mark).dropCandidate
  return { s with keyAllowed := false }

/-- A token is only looked for where so many characters are in sight. -/
def sight : Nat := 4

/-- Refuses to go on where fewer characters than asked for are left in front of a barrier. -/
def look (s : Lexing) (count : Nat) : Except Fault Unit :=
  match s.barrier with
  | some fault => if (s.rest.drop (count - 1)).isEmpty then .error fault else .ok ()
  | none => .ok ()

/-- Ends the text. -/
def close (s : Lexing) : Except Fault Lexing := do
  let s := { s with finish := s.finish.newLine }
  return (← s.endDocument s.finish).add .streamEnd s.finish

/-! ### Tokens

Each function takes one token at `mark`, the characters of which come first in `s.rest`; `after`
is what follows its first character. -/

variable (s : Lexing) (mark : Mark) (after : List Placed)

def takeDirective : Except Fault Lexing := do
  let s ← s.endDocument mark
  let (directive, rest) ← readDirective mark s.finish after
  return { s.add (.directive directive) mark with rest }

/-- Takes a line of three dashes or points. -/
def takeSeparator (sign : Sign) : Except Fault Lexing := do
  let s ← s.endDocument mark
  return { s.add sign mark with rest := after.drop 2 }

def takeFlowStart (sign : Sign) : Except Fault Lexing := do
  let s ← s.noteCandidate
  return { s.add sign mark with
    rest := after, candidate := none, outer := s.candidate :: s.outer, keyAllowed := true }

def takeFlowEnd (sign : Sign) : Except Fault Lexing := do
  let s ← s.dropCandidate
  let s := { s.add sign mark with rest := after, keyAllowed := false }
  match s.outer with
  | [] => return s
  | candidate :: outer => return { s with candidate, outer }

def takeComma : Except Fault Lexing := do
  let s ← s.dropCandidate
  return { s.add .comma mark with rest := after, keyAllowed := true }

/-- Opens a block for an indicator, unless it stands inside one. Between brackets there are no
blocks. -/
def openFor (sign : Sign) (problem : Problem) : Except Fault Lexing :=
  if s.inFlow then .ok s
  else if s.keyAllowed then .ok (s.openBlock sign mark s.tokens.length)
  else .error (.found problem mark none)

def takeDash : Except Fault Lexing := do
  let s ← s.openFor mark .blockSequence .sequenceNotAllowed
  let s ← s.dropCandidate
  return { s.add .dash mark with rest := after, keyAllowed := true }

def takeKey : Except Fault Lexing := do
  let s ← s.openFor mark .blockMapping .keyNotAllowed
  let s ← s.dropCandidate
  return { s.add .key mark with rest := after, keyAllowed := !s.inFlow }

/-- Takes a colon. The candidate in front of it becomes a key, and may begin a block. -/
def takeColon : Except Fault Lexing :=
  match s.candidate with
  | some c =>
    let s := { s with tokens := s.tokens.insertIdx c.place ⟨.key, c.mark⟩, candidate := none }
    let s := s.openBlock .blockMapping c.mark c.place
    .ok { s.add .colon mark with rest := after, keyAllowed := false }
  | none => do
    let s ← s.openFor mark .blockMapping .valueNotAllowed
    return { s.add .colon mark with rest := after, keyAllowed := !s.inFlow }

/-- Takes an anchor or an alias. -/
def takeName (context : Context) (sign : String → Sign) : Except Fault Lexing := do
  let s ← s.noteCandidate
  let (name, rest) ← readName context mark s.finish after
  return { s.add (sign name) mark with rest, keyAllowed := false }

def takeTag : Except Fault Lexing := do
  let s ← s.noteCandidate
  let (sign, rest) ← readTag s.inFlow mark s.finish s.rest
  return { s.add sign mark with rest, keyAllowed := false }

def takeBlockScalar (style : Style) : Except Fault Lexing := do
  let s ← s.dropCandidate
  let (text, rest) ← readBlock (style = .folded) s.margin mark s.finish after
  return { s.add (.scalar style (String.ofList text)) mark with rest, keyAllowed := true }

def takeQuoted (style : Style) : Except Fault Lexing := do
  let s ← s.noteCandidate
  let (text, rest) ← readQuoted (style = .doubleQuoted) mark s.finish .none after
  return { s.add (.scalar style (String.ofList text)) mark with rest, keyAllowed := false }

def takePlain : Except Fault Lexing := do
  let s ← s.noteCandidate
  let t ← readPlain ⟨s.inFlow, s.margin⟩ mark .none s.rest
  return { s.add (.scalar .plain (String.ofList t.text)) mark with
    rest := t.rest, keyAllowed := t.endsLine }

/-- Whether a plain scalar may start with a character. -/
def startsPlain (inFlow : Bool) (c : Char) (after : List Placed) : Bool :=
  if c = '-' then !((after.head?.map (isBlank ·.char)).getD false)
  else if c = '?' ∨ c = ':' then !inFlow && !atGap after
  else !(isBlank c || ",[]\x7b\x7d#&*!|>'\"%@`".toList.contains c)

/-- Takes the next token, which starts with `c`. -/
def takeToken (c : Char) : Except Fault Lexing :=
  if c = '%' ∧ mark.column = 0 then s.takeDirective mark after
  else if atTriple '-' s.rest then s.takeSeparator mark after .documentStart
  else if atTriple '.' s.rest then s.takeSeparator mark after .documentEnd
  else if c = '[' then s.takeFlowStart mark after .flowSequence
  else if c = '{' then s.takeFlowStart mark after .flowMapping
  else if c = ']' then s.takeFlowEnd mark after .flowSequenceEnd
  else if c = '}' then s.takeFlowEnd mark after .flowMappingEnd
  else if c = ',' then s.takeComma mark after
  else if c = '-' ∧ atGap after then s.takeDash mark after
  else if c = '?' ∧ (s.inFlow ∨ atGap after) then s.takeKey mark after
  else if c = ':' ∧ (s.inFlow ∨ atGap after) then s.takeColon mark after
  else if c = '*' then s.takeName mark after .alias .alias
  else if c = '&' then s.takeName mark after .anchor .anchor
  else if c = '!' then s.takeTag mark
  else if c = '|' ∧ !s.inFlow then s.takeBlockScalar mark after .literal
  else if c = '>' ∧ !s.inFlow then s.takeBlockScalar mark after .folded
  else if c = '\'' then s.takeQuoted mark after .singleQuoted
  else if c = '"' then s.takeQuoted mark after .doubleQuoted
  else if startsPlain s.inFlow c after then s.takePlain mark
  else .error (.inside .nextToken mark .strayCharacter mark)

/-! ### All tokens -/

/-- The tokens of a text, and why there are no more of them, if that is a fault. -/
structure Tokens where
  tokens : List Token
  fault : Option Fault := none
  deriving DecidableEq, Repr

/-- One token further. -/
def step (s : Lexing) : Except Fault Lexing := do
  let s ← s.approach
  s.look sight
  let s ←
    match s.rest with
    | [] => s.close
    | p :: after => s.takeToken p.mark after p.char
  s.look 1
  s.expire

/-- What is found to be wrong, instead of a fault that lies behind the text. -/
def met (s : Lexing) (fault : Fault) : Fault :=
  match s.barrier, fault with
  | some barrier, .found _ mark _ => if s.finish.index ≤ mark.index then barrier else fault
  | _, _ => fault

/-- Reads on to the end of the text or to a fault. -/
def run (s : Lexing) : Tokens :=
  match s.step with
  | .error fault => ⟨s.tokens.take s.settled, some (s.met fault)⟩
  | .ok next =>
    if next.tokens.getLast?.map (·.sign) = some .streamEnd then ⟨next.tokens, none⟩
    else if _h : next.rest.length < s.rest.length then run next
    else ⟨next.tokens, none⟩
termination_by s.rest.length

end Lexing

/-- The tokens of a text. -/
def tokens (text : String) : Lexing.Tokens :=
  let chars := text.toList
  match firstForbidden? chars with
  | some f =>
    let l := Layout.ofChars {} (chars.take f.sound)
    let barrier := Fault.forbiddenCharacter f.offset
    Lexing.run { rest := l.chars, finish := l.finish, barrier }
  | none =>
    let l := Layout.ofChars {} chars
    Lexing.run { rest := l.chars, finish := l.finish }

end PageMend.Yaml
