import PageMend.Text.Quoted

/-!
# Why a page cannot be read

Each way in which a page can be malformed is a constructor; `Fault.message` is its wording. A
`MarkupError` adds the place, as the number of bytes in front of it.
-/

namespace PageMend.Markup

/-- A piece of markup that can be left unfinished. -/
inductive Construct where
  | bang | comment | cdata | doctype | instruction | element
  deriving DecidableEq, Repr

def Construct.name : Construct → String
  | .bang => "Bang"
  | .comment => "Comment"
  | .cdata => "CData"
  | .doctype => "DOCTYPE"
  | .instruction => "XmlDecl"
  | .element => "Element"

/-- What is wrong with the attributes of a tag. Places count bytes from the start of the name. -/
inductive AttributeFault where
  | duplicated (place previous : Nat)
  | missingValue (place : Nat)
  | missingQuote (place : Nat) (quote : Char)
  deriving DecidableEq, Repr

def AttributeFault.message : AttributeFault → String
  | .duplicated place previous =>
    "position " ++ toString place ++ ": duplicated attribute, previous declaration at position " ++
      toString previous
  | .missingValue place =>
    "position " ++ toString place ++ ": `=` must be followed by an attribute value"
  | .missingQuote place quote =>
    "position " ++ toString place ++ ": missing closing quote `" ++ quote.toString ++
      "` in attribute value"

/-- What is wrong with a page. -/
inductive Fault where
  /-- The page ends inside a piece of markup, or the piece is not of its kind after all. -/
  | unfinished (what : Construct)
  /-- Behind an exclamation mark stands a character that starts nothing. -/
  | strangeBang (found : Char)
  | emptyDoctype
  /-- The page ends inside the body of a script or style sheet. -/
  | unfinishedBody (name : String)
  | attribute (fault : AttributeFault)
  | mismatchedEnd (expected found : String)
  | strayEnd (name : String)
  | unclosed (name : String)
  deriving DecidableEq, Repr

/-- The first byte of a character in UTF-8, as a character of its own. -/
def leadByte (c : Char) : Char :=
  let n := c.toNat
  if n < 0x80 then c
  else if n < 0x800 then Char.ofNat (0xC0 + n / 0x40)
  else if n < 0x10000 then Char.ofNat (0xE0 + n / 0x1000)
  else Char.ofNat (0xF0 + n / 0x40000)

def Fault.message : Fault → String
  | .unfinished what => "Unexpected EOF during reading " ++ what.name
  | .strangeBang found =>
    "Only Comment (`--`), CDATA (`[CDATA[`) and DOCTYPE (`DOCTYPE`) nodes can start with a '!', " ++
      "but symbol `" ++ (leadByte found).toString ++ "` found"
  | .emptyDoctype => "DOCTYPE declaration must not be empty"
  | .unfinishedBody name => "Unexpected EOF during reading </Ok(" ++ Text.quoted name ++ ")>"
  | .attribute fault => fault.message
  | .mismatchedEnd expected found => "expected </" ++ expected ++ ">, found </" ++ found ++ ">"
  | .strayEnd name => "unexpected </" ++ name ++ ">"
  | .unclosed name => "unclosed element <" ++ name ++ ">"

/-- A fault and the number of bytes in front of the place where it shows. -/
structure MarkupError where
  position : Nat
  fault : Fault
  deriving DecidableEq, Repr

def MarkupError.message (e : MarkupError) : String :=
  "Malformed markup at byte " ++ toString e.position ++ ": " ++ e.fault.message

end PageMend.Markup
