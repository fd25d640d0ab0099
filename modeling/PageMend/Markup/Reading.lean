import PageMend.Markup.Token
import PageMend.Markup.Fault

/-!
# The first token of a text

`readToken` reads one token from the front of a text. It answers the token with its source and
the rest of the text, or that the text is over, or what is wrong and how many bytes in front of
the place are well. `source_append_rest` says that source and rest make up the text, and
`length_rest_lt` that the rest is shorter, so that reading on comes to an end.
-/

namespace PageMend.Markup

open Text (isMarkupBlank)

/-- What is at the front of a text. -/
inductive Reading where
  | lexeme (lexeme : Lexeme) (rest : List Char)
  /-- The text is over. A `<` with nothing behind it belongs to no token and is lost. -/
  | finished (lost : List Char)
  /-- `consumed` bytes lie in front of the place where the fault shows. -/
  | failed (fault : Fault) (consumed : Nat)
  deriving DecidableEq, Repr

/-! ### Where a tag ends -/

/-- Splits a text at its first `>`: what is in front, the `>` itself if there is one, and what is
behind. -/
def splitAtClose (cs : List Char) : List Char × List Char × List Char :=
  let tail := cs.dropWhile (· ≠ '>')
  (cs.takeWhile (· ≠ '>'), tail.take 1, tail.drop 1)

/-- What stands in front of the first `>` outside quotation marks, and what stands behind it.
Quotation marks count anywhere in a tag; `quote` is the one that is open. -/
def splitOutsideQuotes : Option Char → List Char → Option (List Char × List Char)
  | _, [] => none
  | none, c :: cs =>
    if c = '>' then some ([], cs)
    else
      (splitOutsideQuotes (if c = '"' ∨ c = '\'' then some c else none) cs).map
        fun (front, behind) => (c :: front, behind)
  | some quote, c :: cs =>
    (splitOutsideQuotes (if c = quote then none else some quote) cs).map
      fun (front, behind) => (c :: front, behind)

/-- What stands in front of the first `>` at which `closes` holds of the text in front of it, and
what stands behind. `seen` is the text in front, last character first. -/
def splitWhere (closes : List Char → Bool) (seen : List Char) :
    List Char → Option (List Char × List Char)
  | [] => none
  | c :: cs =>
    if c = '>' ∧ closes seen then some ([], cs)
    else (splitWhere closes (c :: seen) cs).map fun (front, behind) => (c :: front, behind)

/-- A comment ends at `-->`, with at least the two hyphens of its start in front. -/
def closesComment (seen : List Char) : Bool :=
  4 < seen.length && ['-', '-'].isPrefixOf seen

/-- A CDATA section ends at `]]>`. -/
def closesCData (seen : List Char) : Bool := [']', ']'].isPrefixOf seen

/-- A document type ends at the `>` in front of which all brackets are balanced. -/
def closesDoctype (seen : List Char) : Bool := seen.count '<' == seen.count '>'

/-! ### Tags -/

/-- The name of an end tag: blanks at its end do not count, unless it is made of blanks alone. -/
def endName (content : List Char) : List Char :=
  if content.all isMarkupBlank then content
  else (content.reverse.dropWhile isMarkupBlank).reverse

/-- A comment without the marks at its ends, or `none` if it does not start with two hyphens. -/
def commentBody? (content : List Char) : Option (List Char) :=
  if "!--".toList.isPrefixOf content then some ((content.drop 3).take (content.length - 5))
  else none

/-- A CDATA section without the marks at its ends, or `none` if it does not start as one. -/
def cdataBody? (content : List Char) : Option (List Char) :=
  if (content.take 8).map Char.toLower == "![cdata[".toList then
    some ((content.drop 8).take (content.length - 10))
  else none

/-- What stands behind the keyword of a document type, or `none` if there is no keyword. -/
def doctypeBody? (content : List Char) : Option (List Char) :=
  if (content.take 8).map Char.toLower == "!doctype".toList then
    some ((content.drop 8).dropWhile isMarkupBlank)
  else none

/-- Reads a piece of markup that starts with an exclamation mark, from that mark on. It ends at
the first `>` at which `closes` holds; `token` makes the token of what is in between. -/
def readSection (what : Construct) (closes : List Char → Bool)
    (token : List Char → Except Fault Token) (cs : List Char) : Reading :=
  match splitWhere closes ['!'] cs with
  | none => .failed (.unfinished what) 1
  | some (front, rest) =>
    match token ('!' :: front) with
    | .error fault => .failed fault (byteLength front + 3)
    | .ok token => .lexeme ⟨token, '<' :: '!' :: front ++ ['>']⟩ rest

/-- The token of a comment with the given content. -/
def commentOf (content : List Char) : Except Fault Token :=
  match commentBody? content with
  | none => .error (.unfinished .comment)
  | some body => .ok (.comment body)

/-- The token of a CDATA section with the given content. -/
def cdataOf (content : List Char) : Except Fault Token :=
  match cdataBody? content with
  | none => .error (.unfinished .cdata)
  | some body => .ok (.cdata body)

/-- The token of a document type with the given content. -/
def doctypeOf (content : List Char) : Except Fault Token :=
  match doctypeBody? content with
  | none => .error (.unfinished .doctype)
  | some [] => .error .emptyDoctype
  | some body => .ok (.doctype body)

/-- Reads a comment, CDATA section or document type, from behind the exclamation mark on. -/
def readBang : List Char → Reading
  | [] => .failed (.unfinished .bang) 1
  | c :: cs =>
    if c = '[' then readSection .cdata closesCData cdataOf (c :: cs)
    else if c = '-' then readSection .comment closesComment commentOf (c :: cs)
    else if c = 'D' ∨ c = 'd' then readSection .doctype closesDoctype doctypeOf (c :: cs)
    else .failed (.strangeBang c) 1

/-- Reads an end tag, from behind its slash on. The last tag of a text may lack its bracket. -/
def readEnd (cs : List Char) : Reading :=
  let (content, close, rest) := splitAtClose cs
  .lexeme ⟨.endTag (endName content), '<' :: '/' :: content ++ close⟩ rest

/-- Reads a processing instruction, from behind its first question mark on. A second question
mark ends it; the last one of a text may lack its bracket. -/
def readInstruction (cs : List Char) : Reading :=
  let (content, close, rest) := splitAtClose cs
  if 1 < content.length ∧ content.getLast? = some '?' then
    .lexeme ⟨.instruction content.dropLast, '<' :: '?' :: content ++ close⟩ rest
  else .failed (.unfinished .instruction) (1 + close.length)

/-- Splits the content of a tag into its name and what follows. -/
def splitName (content : List Char) : List Char × List Char :=
  (content.takeWhile (!isMarkupBlank ·), content.dropWhile (!isMarkupBlank ·))

/-- The token of a tag with the given content: a slash at the end makes it its own end tag. -/
def tagOf (content : List Char) : Token :=
  if content.getLast? = some '/' then
    let (name, attributes) := splitName content.dropLast
    .emptyTag name attributes
  else
    let (name, attributes) := splitName content
    .startTag name attributes

/-- Reads a start tag, from behind its bracket on. -/
def readElement (cs : List Char) : Reading :=
  match splitOutsideQuotes none cs with
  | none => .failed (.unfinished .element) 1
  | some (content, rest) => .lexeme ⟨tagOf content, '<' :: content ++ ['>']⟩ rest

/-- Reads a tag of any kind, from behind its bracket on. -/
def readTag : List Char → Reading
  | [] => .finished ['<']
  | '!' :: cs => readBang cs
  | '/' :: cs => readEnd cs
  | '?' :: cs => readInstruction cs
  | cs => readElement cs

/-- Reads one token. -/
def readToken : List Char → Reading
  | [] => .finished []
  | c :: cs =>
    if c = '<' then readTag cs
    else
      let body := c :: cs.takeWhile (· ≠ '<')
      .lexeme ⟨.text body, body⟩ (cs.dropWhile (· ≠ '<'))

/-! ### Nothing is lost -/

theorem splitAtClose_append (cs : List Char) :
    (splitAtClose cs).1 ++ (splitAtClose cs).2.1 ++ (splitAtClose cs).2.2 = cs := by
  simp only [splitAtClose, List.append_assoc, List.take_append_drop]
  exact List.takeWhile_append_dropWhile

theorem splitOutsideQuotes_append {quote : Option Char} {cs front behind : List Char}
    (h : splitOutsideQuotes quote cs = some (front, behind)) : front ++ '>' :: behind = cs := by
  fun_induction splitOutsideQuotes quote cs generalizing front behind with
  | case1 => cases h
  | case2 => cases h; simp_all
  | case3 c cs _ ih =>
    obtain ⟨p, hp, hf⟩ := Option.map_eq_some_iff.1 h
    cases hf
    simp [ih hp]
  | case4 quote c cs ih =>
    obtain ⟨p, hp, hf⟩ := Option.map_eq_some_iff.1 h
    cases hf
    simp [ih hp]

theorem splitWhere_append {closes : List Char → Bool} {seen cs front behind : List Char}
    (h : splitWhere closes seen cs = some (front, behind)) : front ++ '>' :: behind = cs := by
  fun_induction splitWhere closes seen cs generalizing front behind with
  | case1 => cases h
  | case2 => cases h; simp_all
  | case3 seen c cs _ ih =>
    obtain ⟨p, hp, hf⟩ := Option.map_eq_some_iff.1 h
    cases hf
    simp [ih hp]

/-- The source of a token starts with its bracket, and source and rest make up the text. -/
def Covers (reading : Reading) (text : List Char) : Prop :=
  ∀ l rest, reading = .lexeme l rest → l.source ≠ [] ∧ l.source ++ rest = text

theorem covers_readSection (what : Construct) (closes : List Char → Bool)
    (token : List Char → Except Fault Token) (cs : List Char) :
    Covers (readSection what closes token cs) ('<' :: '!' :: cs) := by
  intro l rest h
  unfold readSection at h
  split at h
  · cases h
  · rename_i hs
    split at h
    · cases h
    · cases h
      simpa using splitWhere_append hs

theorem covers_readBang (cs : List Char) : Covers (readBang cs) ('<' :: '!' :: cs) := by
  intro l rest h
  unfold readBang at h
  split at h
  · cases h
  · split at h
    · exact covers_readSection _ _ _ _ l rest h
    · split at h
      · exact covers_readSection _ _ _ _ l rest h
      · split at h
        · exact covers_readSection _ _ _ _ l rest h
        · cases h

theorem covers_readEnd (cs : List Char) : Covers (readEnd cs) ('<' :: '/' :: cs) := by
  intro l rest h
  simp only [readEnd, Reading.lexeme.injEq] at h
  obtain ⟨rfl, rfl⟩ := h
  simpa using splitAtClose_append cs

theorem covers_readInstruction (cs : List Char) :
    Covers (readInstruction cs) ('<' :: '?' :: cs) := by
  intro l rest h
  simp only [readInstruction] at h
  split at h
  · cases h
    simpa using splitAtClose_append cs
  · cases h

theorem covers_readElement (cs : List Char) : Covers (readElement cs) ('<' :: cs) := by
  intro l rest h
  unfold readElement at h
  split at h
  · cases h
  · rename_i hs
    cases h
    simpa using splitOutsideQuotes_append hs

theorem covers_readTag (cs : List Char) : Covers (readTag cs) ('<' :: cs) := by
  intro l rest h
  unfold readTag at h
  split at h
  · cases h
  · exact covers_readBang _ l rest h
  · exact covers_readEnd _ l rest h
  · exact covers_readInstruction _ l rest h
  · exact covers_readElement _ l rest h

theorem covers_readToken (cs : List Char) : Covers (readToken cs) cs := by
  intro l rest h
  unfold readToken at h
  split at h
  · cases h
  · split at h
    · rename_i hc
      subst hc
      exact covers_readTag _ l rest h
    · cases h
      simp

/-- The source of a token and what is left make up the text. -/
theorem source_append_rest {cs rest : List Char} {l : Lexeme}
    (h : readToken cs = .lexeme l rest) : l.source ++ rest = cs :=
  (covers_readToken cs l rest h).2

theorem source_ne_nil {cs rest : List Char} {l : Lexeme}
    (h : readToken cs = .lexeme l rest) : l.source ≠ [] :=
  (covers_readToken cs l rest h).1

/-- What is left behind a token is shorter than the text. -/
theorem length_rest_lt {cs rest : List Char} {l : Lexeme}
    (h : readToken cs = .lexeme l rest) : rest.length < cs.length := by
  have happ := congrArg List.length (source_append_rest h)
  have hpos := List.length_pos_iff.2 (source_ne_nil h)
  simp only [List.length_append] at happ
  omega

end PageMend.Markup
