import PageMend.Yaml.Token

/-!
# Nodes

A document is a tree of scalars, sequences and mappings. A node can bear an anchor, and an alias
stands for the node that bears it. Where a text breaks off, its tree has the node `missing`.
-/

namespace PageMend.Yaml

/-- What is written in front of the content of a node, and where it begins. -/
structure Properties where
  mark : Mark
  /-- The number of its anchor. -/
  anchor : Option Nat := none
  tag : Option String := none
  deriving DecidableEq, Repr

inductive Node where
  | scalar (properties : Properties) (style : Style) (text : String)
  | sequence (properties : Properties) (items : List Node)
  | mapping (properties : Properties) (entries : List (Node × Node))
  | alias (mark : Mark) (anchor : Nat)
  /-- Here the text broke off. -/
  | missing
  deriving Repr

namespace Node

/-- An empty scalar. -/
def empty (properties : Properties) : Node := .scalar properties .plain ""

mutual

/-- Whether the text did not break off inside a node. -/
def isWhole : Node → Bool
  | .scalar _ _ _ | .alias _ _ => true
  | .sequence _ items => areWhole items
  | .mapping _ entries => entriesAreWhole entries
  | .missing => false

def areWhole : List Node → Bool
  | [] => true
  | n :: ns => n.isWhole && areWhole ns

def entriesAreWhole : List (Node × Node) → Bool
  | [] => true
  | (key, value) :: entries => key.isWhole && value.isWhole && entriesAreWhole entries

end

mutual

/-- The nodes of a tree that bear an anchor, in the order in which they begin. -/
def anchored : Node → List (Nat × Node)
  | n@(.sequence p items) => (p.anchor.map fun a => (a, n)).toList ++ anchoredIn items
  | n@(.mapping p entries) => (p.anchor.map fun a => (a, n)).toList ++ anchoredInEntries entries
  | n@(.scalar p _ _) => (p.anchor.map fun a => (a, n)).toList
  | .alias _ _ | .missing => []

def anchoredIn : List Node → List (Nat × Node)
  | [] => []
  | n :: ns => n.anchored ++ anchoredIn ns

def anchoredInEntries : List (Node × Node) → List (Nat × Node)
  | [] => []
  | (key, value) :: entries => key.anchored ++ value.anchored ++ anchoredInEntries entries

end

/-- The node of a tree that an alias stands for: the last one that bears the anchor. -/
def withAnchor? (root : Node) (anchor : Nat) : Option Node :=
  root.anchored.reverse.lookup anchor

end Node

end PageMend.Yaml
