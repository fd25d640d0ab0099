import PageMend.Yaml.Scalar

/-!
# Tokens

The pieces that a YAML text is made of. Indentation is among them: where lines become more
indented a block begins, and where they become less indented blocks end.
-/

namespace PageMend.Yaml

/-- A line that tells how the document behind it is written. -/
inductive Directive where
  | version (major minor : Nat)
  | tag (handle uri : String)
  deriving DecidableEq, Repr

/-- What a token is. -/
inductive Sign where
  | streamEnd
  | directive (d : Directive)
  | documentStart | documentEnd
  | blockSequence | blockMapping | blockEnd
  | flowSequence | flowSequenceEnd | flowMapping | flowMappingEnd | comma
  | dash | key | colon
  | alias (name : String)
  | anchor (name : String)
  | tag (handle suffix : String)
  | scalar (style : Style) (text : String)
  deriving DecidableEq, Repr

/-- A token and where it begins. -/
structure Token where
  sign : Sign
  mark : Mark
  deriving DecidableEq, Repr

end PageMend.Yaml
