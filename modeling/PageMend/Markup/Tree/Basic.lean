import PageMend.Markup.Token

/-!
# The tree of a page

A tree is an arena of nodes, numbered in the order of their creation; node 0 is the root. Nodes
keep the text of the page as it was written, so that a tree can be written out again.

The links of a tree go upward from a higher to a lower number and downward from a lower to a
higher one (`Tree.ordered`). A tree therefore has no cycles, and every walk over it ends. Two
operations change links: `appendChild` adds a node, and `update` changes one node without adding
links to it.
-/

namespace PageMend.Markup

structure Element where
  /-- The name as written. -/
  name : String
  /-- What follows the name in the tag, as written. -/
  attributes : String
  /-- The words of the `class` attribute. -/
  classes : List String
  /-- Written as a tag that is its own end tag. -/
  selfClosing : Bool
  deriving DecidableEq, Repr

/-- Whether an element has that tag name, up to the case of ASCII letters. -/
def Element.hasName (e : Element) (tag : String) : Bool := sameName e.name tag

def Element.hasClass (e : Element) (name : String) : Bool := e.classes.contains name

/-- Whether an element never has content or an end tag. -/
def Element.isVoid (e : Element) : Bool := isVoidName e.name

inductive Kind where
  | root
  | element (element : Element)
  /-- Character data as written. -/
  | text (body : String)
  /-- Comments, CDATA sections, instructions, document types and other markup, as written. -/
  | markup (spelling : String)
  deriving DecidableEq, Repr

def Kind.element? : Kind → Option Element
  | .element e => some e
  | _ => none

def Kind.text? : Kind → Option String
  | .text body => some body
  | _ => none

structure Node where
  kind : Kind
  parent : Option Nat
  children : List Nat
  deriving DecidableEq, Repr

/-- Parents have lower numbers than their children, and children are in the arena. -/
def Ordered (nodes : Array Node) : Prop :=
  ∀ i n, nodes[i]? = some n →
    (∀ p, n.parent = some p → p < i) ∧ ∀ c ∈ n.children, i < c ∧ c < nodes.size

structure Tree where
  nodes : Array Node
  ordered : Ordered nodes

namespace Tree

/-- The tree of an empty page. -/
def empty : Tree where
  nodes := #[⟨.root, none, []⟩]
  ordered := by
    intro i n h
    match i with
    | 0 => cases h; simp
    | i + 1 => simp at h

instance : Inhabited Tree := ⟨empty⟩

/-- The number of the root. -/
def root : Nat := 0

def size (t : Tree) : Nat := t.nodes.size

/-- Whether there is a node with that number. -/
def contains (t : Tree) (id : Nat) : Bool := id < t.size

/-- The node with that number. Outside the arena it is a root without children. -/
def node (t : Tree) (id : Nat) : Node := t.nodes[id]?.getD ⟨.root, none, []⟩

def kind (t : Tree) (id : Nat) : Kind := (t.node id).kind

def parent (t : Tree) (id : Nat) : Option Nat := (t.node id).parent

def children (t : Tree) (id : Nat) : List Nat := (t.node id).children

def element? (t : Tree) (id : Nat) : Option Element := (t.kind id).element?

def text? (t : Tree) (id : Nat) : Option String := (t.kind id).text?

/-! ### Links go one way -/

theorem lt_of_mem_children {t : Tree} {id c : Nat} (h : c ∈ t.children id) :
    id < c ∧ c < t.size := by
  unfold children node at h
  cases hn : t.nodes[id]? with
  | none => simp [hn] at h
  | some n =>
    rw [hn] at h
    exact (t.ordered id n hn).2 c h

theorem parent_lt {t : Tree} {id p : Nat} (h : t.parent id = some p) : p < id := by
  unfold parent node at h
  cases hn : t.nodes[id]? with
  | none => simp [hn] at h
  | some n =>
    rw [hn] at h
    exact (t.ordered id n hn).1 p h

/-! ### Changing a tree -/

/-- A node with no links that the other lacks. -/
structure Loosens (n m : Node) : Prop where
  parent : ∀ p, m.parent = some p → n.parent = some p
  children : ∀ c ∈ m.children, c ∈ n.children

/-- Changes one node. The change may drop links but adds none. -/
def update (t : Tree) (id : Nat) (f : Node → Node) (loosens : ∀ n, Loosens n (f n)) : Tree where
  nodes := t.nodes.modify id f
  ordered := by
    intro i n h
    rw [Array.getElem?_modify] at h
    rw [Array.size_modify]
    split at h
    · obtain ⟨m, hm, rfl⟩ := Option.map_eq_some_iff.1 h
      exact ⟨fun p hp => (t.ordered i m hm).1 p ((loosens m).parent p hp),
        fun c hc => (t.ordered i m hm).2 c ((loosens m).children c hc)⟩
    · exact t.ordered i n h

/-- Adds a node at the end of the arena, as the last child of `parent`, which has to exist. The
new node's number is the size of the tree so far. -/
def appendChild (t : Tree) (parent : Nat) (kind : Kind) : Tree :=
  if hp : parent < t.size then
    { nodes :=
        (t.nodes.push ⟨kind, some parent, []⟩).modify parent fun n =>
          { n with children := n.children ++ [t.size] }
      ordered := by
        have push : ∀ i n, (t.nodes.push ⟨kind, some parent, []⟩)[i]? = some n →
            (∀ p, n.parent = some p → p < i) ∧ ∀ c ∈ n.children, i < c ∧ c < t.size + 1 := by
          intro i n h
          rw [Array.getElem?_push] at h
          split at h
          · rename_i hi
            cases h
            exact ⟨fun p h => by cases h; exact hi ▸ hp, by simp⟩
          · exact ⟨(t.ordered i n h).1,
              fun c hc => ⟨((t.ordered i n h).2 c hc).1,
                Nat.lt_succ_of_lt ((t.ordered i n h).2 c hc).2⟩⟩
        intro i n h
        rw [Array.getElem?_modify] at h
        rw [Array.size_modify, Array.size_push]
        split at h
        · rename_i hi
          obtain ⟨m, hm, rfl⟩ := Option.map_eq_some_iff.1 h
          refine ⟨(push i m hm).1, fun c hc => ?_⟩
          rcases List.mem_append.1 hc with hc | hc
          · exact (push i m hm).2 c hc
          · rw [List.mem_singleton.1 hc]
            exact ⟨hi ▸ hp, Nat.lt_succ_self _⟩
        · exact push i n h }
  else t

@[simp] theorem size_update (t : Tree) (id : Nat) (f : Node → Node)
    (loosens : ∀ n, Loosens n (f n)) : (t.update id f loosens).size = t.size := by
  simp [update, size]

theorem size_appendChild (t : Tree) {parent : Nat} (h : parent < t.size) (kind : Kind) :
    (t.appendChild parent kind).size = t.size + 1 := by
  unfold appendChild
  rw [dif_pos h]
  simp [size]

end Tree

end PageMend.Markup
