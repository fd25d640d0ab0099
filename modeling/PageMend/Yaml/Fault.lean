import PageMend.Yaml.Layout

/-!
# Why a text is not YAML

A fault says what is wrong and where, and usually what was being read and where that began. The
places are left out of the message where they say nothing: the start of the text, and a beginning
at the very place of the fault.
-/

namespace PageMend.Yaml

/-- What was being read. -/
inductive Context where
  | simpleKey | nextToken
  | directive | versionDirective | tagDirective | tagDirectiveHandle | tagDirectiveEnd
  | tagDirectiveUri
  | anchor | alias | tag | tagUri
  | blockScalar | quotedScalar | escape | plainScalar
  | node | blockNode | flowNode | blockSequence | blockMapping | flowSequence | flowMapping
  deriving DecidableEq, Repr

def Context.message : Context → String
  | .simpleKey => "while scanning a simple key"
  | .nextToken => "while scanning for the next token"
  | .directive => "while scanning a directive"
  | .versionDirective => "while scanning a %YAML directive"
  | .tagDirective => "while scanning a %TAG directive"
  | .tagDirectiveHandle => "while scanning a tag directive"
  | .tagDirectiveEnd => "while parsing a tag directive"
  | .tagDirectiveUri => "while parsing a %TAG directive"
  | .anchor => "while scanning an anchor"
  | .alias => "while scanning an alias"
  | .tag => "while scanning a tag"
  | .tagUri => "while parsing a tag"
  | .blockScalar => "while scanning a block scalar"
  | .quotedScalar => "while scanning a quoted scalar"
  | .escape => "while parsing a quoted scalar"
  | .plainScalar => "while scanning a plain scalar"
  | .node => "while parsing a node"
  | .blockNode => "while parsing a block node"
  | .flowNode => "while parsing a flow node"
  | .blockSequence => "while parsing a block collection"
  | .blockMapping => "while parsing a block mapping"
  | .flowSequence => "while parsing a flow sequence"
  | .flowMapping => "while parsing a flow mapping"

/-- What is wrong. -/
inductive Problem where
  | keyWithoutColon | strayCharacter
  | sequenceNotAllowed | keyNotAllowed | valueNotAllowed
  | directiveName | directiveNameEnd | unknownDirective | directiveEnd
  | versionDigit | versionLength | versionPoint
  | nameMissing
  | tagBang | tagUri | tagClose | tagSpace | tagEnd | uriOctet | uriLeadingOctet | uriTrailingOctet
  | zeroIndentation | headerEnd | tabInIndentation
  | separatorInQuotes | unclosedQuotes | unknownEscape | escapeDigit | escapeCode
  | colonInFlow | tabInPlain
  | duplicateVersion | incompatibleVersion | duplicateTagDirective | documentStart
  | undefinedHandle | nodeContent | dash | key | commaOrBracket | commaOrBrace
  deriving DecidableEq, Repr

def Problem.message : Problem → String
  | .keyWithoutColon => "could not find expected ':'"
  | .strayCharacter => "found character that cannot start any token"
  | .sequenceNotAllowed => "block sequence entries are not allowed in this context"
  | .keyNotAllowed => "mapping keys are not allowed in this context"
  | .valueNotAllowed => "mapping values are not allowed in this context"
  | .directiveName => "could not find expected directive name"
  | .directiveNameEnd => "found unexpected non-alphabetical character"
  | .unknownDirective => "found unknown directive name"
  | .directiveEnd => "did not find expected comment or line break"
  | .versionDigit => "did not find expected version number"
  | .versionLength => "found extremely long version number"
  | .versionPoint => "did not find expected digit or '.' character"
  | .nameMissing => "did not find expected alphabetic or numeric character"
  | .tagBang => "did not find expected '!'"
  | .tagUri => "did not find expected tag URI"
  | .tagClose => "did not find the expected '>'"
  | .tagSpace => "did not find expected whitespace"
  | .tagEnd => "did not find expected whitespace or line break"
  | .uriOctet => "did not find URI escaped octet"
  | .uriLeadingOctet => "found an incorrect leading UTF-8 octet"
  | .uriTrailingOctet => "found an incorrect trailing UTF-8 octet"
  | .zeroIndentation => "found an indentation indicator equal to 0"
  | .headerEnd => "did not find expected comment or line break"
  | .tabInIndentation => "found a tab character where an indentation space is expected"
  | .separatorInQuotes => "found unexpected document indicator"
  | .unclosedQuotes => "found unexpected end of stream"
  | .unknownEscape => "found unknown escape character"
  | .escapeDigit => "did not find expected hexadecimal number"
  | .escapeCode => "found invalid Unicode character escape code"
  | .colonInFlow => "found unexpected ':'"
  | .tabInPlain => "found a tab character that violates indentation"
  | .duplicateVersion => "found duplicate %YAML directive"
  | .incompatibleVersion => "found incompatible YAML document"
  | .duplicateTagDirective => "found duplicate %TAG directive"
  | .documentStart => "did not find expected <document start>"
  | .undefinedHandle => "found undefined tag handle"
  | .nodeContent => "did not find expected node content"
  | .dash => "did not find expected '-' indicator"
  | .key => "did not find expected key"
  | .commaOrBracket => "did not find expected ',' or ']'"
  | .commaOrBrace => "did not find expected ',' or '\x7d'"

/-- Why a text is not YAML. -/
inductive Fault where
  /-- A character that no YAML text holds, with so many bytes in front of it. -/
  | forbiddenCharacter (offset : Nat)
  | found (problem : Problem) (mark : Mark) (context : Option (Context × Mark))
  deriving DecidableEq, Repr

/-- A fault inside something that began at `start`. -/
def Fault.inside (context : Context) (start : Mark) (problem : Problem) (mark : Mark) : Fault :=
  .found problem mark (some (context, start))

/-- A place, as the end of a message. -/
def Mark.suffix (m : Mark) : String := if m.isStart then "" else " at " ++ m.message

def Fault.message : Fault → String
  | .forbiddenCharacter offset =>
    "control characters are not allowed" ++
      if offset = 0 then "" else " at position " ++ toString offset
  | .found problem mark context =>
    problem.message ++ mark.suffix ++
      match context with
      | none => ""
      | some (c, start) =>
        ", " ++ c.message ++
          if start.line = mark.line ∧ start.column = mark.column then "" else start.suffix

end PageMend.Yaml
