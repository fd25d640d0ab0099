import PageMend.Markup.Tree.Walk
import PageMend.Text.Search

/-!
# Edits of a tree

The four ways to change a tree: add a node, replace text below a node, replace all children of a
node by one text, and unlink a node. A node that is no longer linked keeps its number and what
lies below it, but is not written out.

An `Edit` is a change as data. `run?` carries it out if the node that it speaks of exists.
-/

namespace PageMend.Markup

namespace Tree

/-- Replaces `pattern` in the node itself if it is text. -/
def replaceHere (t : Tree) (pattern replacement : String) (id : Nat) : Tree :=
  t.update id
    (fun n =>
      match n.kind with
      | .text body => { n with kind := .text (body.replaceEach pattern replacement) }
      | _ => n)
    (fun n => by constructor <;> split <;> simp)

/-- Replaces each occurrence of `pattern` in the text nodes at and below a node, one text node at a
time, and tells whether there was one. An empty pattern has no occurrence. -/
def replaceText (t : Tree) (id : Nat) (pattern replacement : String) : Tree × Bool :=
  if pattern = "" then (t, false)
  else
    let hits := (id :: t.descendants id).filter fun n => (t.text? n).any (·.hasInfix pattern)
    (hits.foldl (fun t n => t.replaceHere pattern replacement n) t, !hits.isEmpty)

/-- Takes the link to its parent from a node. -/
def orphan (t : Tree) (id : Nat) : Tree :=
  t.update id (fun n => { n with parent := none }) (fun n => ⟨by simp, by simp⟩)

/-- Keeps the links to those children of a node for which `keep` holds. -/
def filterChildren (t : Tree) (id : Nat) (keep : Nat → Bool) : Tree :=
  t.update id (fun n => { n with children := n.children.filter keep })
    (fun n => ⟨by simp, fun c hc => (List.mem_filter.1 hc).1⟩)

/-- Replaces all children of a node by one text node. -/
def setText (t : Tree) (id : Nat) (body : String) : Tree :=
  (((t.children id).foldl orphan t).filterChildren id fun _ => false).appendChild id (.text body)

/-- Unlinks a node from its parent, and tells whether it had one. -/
def detach (t : Tree) (id : Nat) : Tree × Bool :=
  match t.parent id with
  | none => (t, false)
  | some p => ((t.orphan id).filterChildren p (· ≠ id), true)

end Tree

/-! ### Edits as data -/

inductive Edit where
  | append (parent : Nat) (kind : Kind)
  | replaceText (node : Nat) (pattern replacement : String)
  | setText (node : Nat) (body : String)
  | detach (node : Nat)
  deriving DecidableEq, Repr

/-- What an edit answers. -/
inductive Edit.Outcome where
  | done
  | created (id : Nat)
  | changed (any : Bool)
  deriving DecidableEq, Repr

/-- Carries out an edit, or `none` if there is no node with the number that it names. Replacing
an empty pattern looks at no node. -/
def Edit.run? (t : Tree) : Edit → Option (Tree × Outcome)
  | .append parent kind =>
    if t.contains parent then some (t.appendChild parent kind, .created t.size) else none
  | .replaceText node pattern replacement =>
    if pattern = "" ∨ t.contains node then
      let (t, any) := t.replaceText node pattern replacement
      some (t, .changed any)
    else none
  | .setText node body => if t.contains node then some (t.setText node body, .done) else none
  | .detach node =>
    if t.contains node then
      let (t, any) := t.detach node
      some (t, .changed any)
    else none

end PageMend.Markup
