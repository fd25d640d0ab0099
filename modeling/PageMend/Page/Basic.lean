import PageMend.Markup.Tree.Edit

/-!
# Pages

A page is a loaded file: its path, its text as it was loaded, the tree that was read from it and
may be edited, and whether an edit is to be saved. The functions find what the rules look for: the
title, headings, tables, cells and rows.
-/

namespace PageMend

open Markup

structure Page where
  path : String
  /-- The text as it was loaded. -/
  source : String
  tree : Tree
  /-- A rule has changed the page. -/
  modified : Bool := false

namespace Page

/-! ### Title and headings -/

/-- The first title element. -/
def titleNode (p : Page) : Option Nat := (p.tree.elementsNamed Tree.root "title").head?

/-- The title as the page writes it. -/
def title (p : Page) : Option String := p.titleNode.map p.tree.text

/-- Replaces the content of the title, and tells whether there is a title. -/
def setTitle (p : Page) (title : String) : Page × Bool :=
  match p.titleNode with
  | none => (p, false)
  | some id => ({ p with tree := p.tree.setText id title }, true)

/-- The elements with that tag name that bear that class, in document order. -/
def headings (p : Page) (tag className : String) : List Nat :=
  (p.tree.elementsNamed Tree.root tag).filter fun id =>
    (p.tree.element? id).any (·.hasClass className)

/-! ### Tables -/

def tables (p : Page) : List Nat := p.tree.elementsNamed Tree.root "table"

/-- The first data cell below a table. -/
def firstCell (p : Page) (table : Nat) : Option Nat := (p.tree.elementsNamed table "td").head?

/-- The row of a cell: the nearest row above it, or else its parent, if that is an element. -/
def rowOf (p : Page) (cell : Nat) : Option Nat :=
  ((p.tree.ancestorNamed cell "tr").or (p.tree.parent cell)).filter fun id =>
    (p.tree.element? id).isSome

/-! ### Edits -/

def replaceText (p : Page) (id : Nat) (pattern replacement : String) : Page × Bool :=
  let (tree, any) := p.tree.replaceText id pattern replacement
  ({ p with tree }, any)

/-- Unlinks a node, and tells whether it was linked. -/
def remove (p : Page) (id : Nat) : Page × Bool :=
  let (tree, any) := p.tree.detach id
  ({ p with tree }, any)

/-- The page as text. -/
def serialize (p : Page) : String := p.tree.serialize

end Page

end PageMend
