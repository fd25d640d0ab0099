import PageMend.Yaml.Layout

/-!
# Gaps inside a scalar

Between two words of a plain or quoted scalar stands a gap. Blanks alone are kept. A single line
feed means a space; of several, the first is dropped and the others are kept. Blanks next to a
line break mean nothing.
-/

namespace PageMend.Yaml

inductive Gap where
  /-- Blanks within a line. -/
  | blanks (cs : List Char)
  /-- Line breaks, with whatever blanks between them. -/
  | breaks (first : Char) (more : List Char)
  /-- Line breaks behind one that was taken back by a backslash. -/
  | joined (more : List Char)
  deriving DecidableEq, Repr

namespace Gap

def none : Gap := .blanks []

/-- The gap with one more blank. -/
def blank (c : Char) : Gap → Gap
  | .blanks cs => .blanks (cs ++ [c])
  | g => g

/-- The gap with one more line break. -/
def lineBreak (c : Char) : Gap → Gap
  | .blanks _ => .breaks c []
  | .breaks first more => .breaks first (more ++ [c])
  | .joined more => .joined (more ++ [c])

/-- Whether the gap goes over the end of a line. -/
def isBroken : Gap → Bool
  | .blanks _ => false
  | _ => true

/-- What the gap stands for. -/
def text : Gap → List Char
  | .blanks cs => cs
  | .breaks '\n' [] => [' ']
  | .breaks '\n' more => more
  | .breaks first more => first :: more
  | .joined more => more

end Gap

end PageMend.Yaml
