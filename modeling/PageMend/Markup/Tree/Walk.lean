import PageMend.Markup.Tree.Basic

/-!
# Walks over a tree

`descendants` lists what lies below a node in document order, each child in front of what lies
below it; `ancestors` lists what lies above, from the parent to the root. Both follow the links of
the tree, and their recursion ends because links go one way.

`serialize` writes a tree out as a page.
-/

namespace PageMend.Markup.Tree

/-- The nodes below a node, in document order. -/
def descendants (t : Tree) (id : Nat) : List Nat :=
  (t.children id).attach.flatMap fun c => c.1 :: descendants t c.1
termination_by t.size - id
decreasing_by
  have := lt_of_mem_children c.2
  omega

/-- The nodes above a node, from its parent upward. -/
def ancestors (t : Tree) (id : Nat) : List Nat :=
  match _h : t.parent id with
  | none => []
  | some p => p :: ancestors t p
termination_by id
decreasing_by exact parent_lt _h

theorem descendants_eq (t : Tree) (id : Nat) :
    t.descendants id = (t.children id).flatMap fun c => c :: t.descendants c := by
  rw [descendants, List.flatMap_def, List.flatMap_def]
  exact congrArg List.flatten
    (List.attach_map_val (l := t.children id) (f := fun c => c :: t.descendants c))

/-- Whether a node is an element with that tag name. -/
def isNamed (t : Tree) (tag : String) (id : Nat) : Bool :=
  (t.element? id).any (·.hasName tag)

/-- The elements below a node with that tag name, in document order. -/
def elementsNamed (t : Tree) (id : Nat) (tag : String) : List Nat :=
  (t.descendants id).filter (t.isNamed tag)

/-- The nearest element above a node with that tag name. -/
def ancestorNamed (t : Tree) (id : Nat) (tag : String) : Option Nat :=
  (t.ancestors id).find? (t.isNamed tag)

/-- The character data of a node: its own if it is text, else all below it, joined. -/
def text (t : Tree) (id : Nat) : String :=
  match t.text? id with
  | some body => body
  | none => String.join ((t.descendants id).filterMap t.text?)

/-! ### Writing a tree out -/

/-- How an element is written around its content. Without children it may need no end tag. -/
def enclose (e : Element) (childless : Bool) (content : String) : String :=
  if childless && e.selfClosing then "<" ++ e.name ++ e.attributes ++ "/>"
  else if childless && e.isVoid then "<" ++ e.name ++ e.attributes ++ ">"
  else "<" ++ e.name ++ e.attributes ++ ">" ++ content ++ "</" ++ e.name ++ ">"

/-- A node and all below it as text. -/
def write (t : Tree) (id : Nat) : String :=
  let content := String.join ((t.children id).attach.map fun c => write t c.1)
  match t.kind id with
  | .root => content
  | .text body => body
  | .markup spelling => spelling
  | .element e => enclose e (t.children id).isEmpty content
termination_by t.size - id
decreasing_by
  have := lt_of_mem_children c.2
  omega

/-- The page that a tree stands for. -/
def serialize (t : Tree) : String := t.write root

theorem write_eq (t : Tree) (id : Nat) :
    t.write id =
      match t.kind id with
      | .root => String.join ((t.children id).map t.write)
      | .text body => body
      | .markup spelling => spelling
      | .element e =>
        enclose e (t.children id).isEmpty (String.join ((t.children id).map t.write)) := by
  have h : (t.children id).attach.map (fun c => t.write c.1) = (t.children id).map t.write :=
    List.attach_map_val
  rw [write, h]

end PageMend.Markup.Tree
