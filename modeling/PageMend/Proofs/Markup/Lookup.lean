import Mathlib.Logic.Relation
import PageMend.Page.Basic
import PageMend.Proofs.Markup.Links

/-!
# Looking nodes up

A tree is read by the numbers of its nodes, and outside the arena a number has no node. Here all
that reads a tree is written once more with each look-up checked: `Checked.walk` goes down with a
stack of nodes, `Checked.ancestors` goes up, `Checked.write` writes, and the searches of a page are
put together from them. They answer `none` as soon as they meet a number without a node.

From a node that exists they never do, and find what the unchecked walks find
(`Checked.descendants_eq`, `Checked.ancestors_eq`, `Checked.write_eq`). With the links in order,
which is so whatever edits were made, each node is found once (`links_of_edits`).
-/

namespace PageMend

open Markup

namespace Markup.Tree

namespace Checked

/-! ## Single nodes -/

/-- The node with that number, if there is one. -/
def node (t : Tree) (id : Nat) : Option Node := t.nodes[id]?

theorem node_eq {t : Tree} {id : Nat} (h : id < t.size) : node t id = some (t.node id) := by
  unfold node Tree.node
  rw [Array.getElem?_eq_getElem h]
  rfl

theorem node_eq_some {t : Tree} {id : Nat} {n : Node} (h : node t id = some n) : t.node id = n := by
  unfold node at h
  unfold Tree.node
  rw [h]
  rfl

/-- The children of a node that was looked up are those of its number. -/
theorem children_of_node {t : Tree} {id : Nat} {n : Node} (h : node t id = some n) :
    t.children id = n.children :=
  congrArg Node.children (node_eq_some h)

/-- The elements with a property among some nodes. -/
def select (t : Tree) (p : Element → Bool) : List Nat → Option (List Nat)
  | [] => some []
  | id :: ids => do
    let n ← node t id
    let rest ← select t p ids
    return if n.kind.element?.any p then id :: rest else rest

theorem select_eq {t : Tree} (p : Element → Bool) {ids : List Nat} (h : ∀ id ∈ ids, id < t.size) :
    select t p ids = some (ids.filter fun id => (t.element? id).any p) := by
  induction ids with
  | nil => rfl
  | cons id ids ih =>
    obtain ⟨hid, hids⟩ := List.forall_mem_cons.1 h
    simp only [select, node_eq hid, ih hids, List.filter_cons]
    rfl

/-! ## Walks -/

/-- The nodes on a stack, each with those below it behind it. The node on top is taken away, and its
children are put in its place. -/
def walk (t : Tree) : List Nat → Option (List Nat)
  | [] => some []
  | id :: stack =>
    match _h : node t id with
    | none => none
    | some n => (walk t (n.children ++ stack)).map (id :: ·)
termination_by stack => (stack.flatMap fun id => id :: t.descendants id).length
decreasing_by
  -- a node gives way to its children, and so the walk has one node less in front of it
  rw [List.flatMap_append, ← children_of_node _h, ← descendants_eq, List.flatMap_cons]
  simp

theorem walk_eq {t : Tree} {stack : List Nat} (h : ∀ id ∈ stack, id < t.size) :
    walk t stack = some (stack.flatMap fun id => id :: t.descendants id) := by
  fun_induction walk t stack with
  | case1 => rfl
  | case2 id stack hn =>
    rw [node_eq (h id List.mem_cons_self)] at hn
    cases hn
  | case3 id stack n hn ih =>
    have hchildren := children_of_node hn
    have hall : ∀ c ∈ n.children ++ stack, c < t.size := by
      intro c hc
      rcases List.mem_append.1 hc with hc | hc
      · exact (lt_of_mem_children (hchildren ▸ hc)).2
      · exact h c (List.mem_cons_of_mem id hc)
    rw [ih hall, List.flatMap_append, ← hchildren, ← descendants_eq, List.flatMap_cons]
    rfl

/-- The nodes below a node. -/
def descendants (t : Tree) (id : Nat) : Option (List Nat) := do walk t (← node t id).children

theorem descendants_eq {t : Tree} {id : Nat} (h : id < t.size) :
    descendants t id = some (t.descendants id) := by
  have hwalk := walk_eq fun c (hc : c ∈ t.children id) => (lt_of_mem_children hc).2
  rw [descendants, node_eq h, Tree.descendants_eq]
  exact hwalk

/-- The nodes above a node. -/
def ancestors (t : Tree) (id : Nat) : Option (List Nat) :=
  match _h : node t id with
  | none => none
  | some n =>
    match _hp : n.parent with
    | none => some []
    | some p => (ancestors t p).map (p :: ·)
termination_by id
decreasing_by
  apply parent_lt (t := t)
  rw [parent, node_eq_some _h, _hp]

theorem ancestors_eq {t : Tree} {id : Nat} (h : id < t.size) :
    ancestors t id = some (t.ancestors id) := by
  fun_induction ancestors t id with
  | case1 id hn =>
    rw [node_eq h] at hn
    cases hn
  | case2 id n hn hp =>
    have hparent : t.parent id = none := by rw [parent, node_eq_some hn, hp]
    rw [Tree.ancestors_eq, hparent]
    rfl
  | case3 id n hn p hp ih =>
    have hparent : t.parent id = some p := by rw [parent, node_eq_some hn, hp]
    rw [ih (Nat.lt_trans (parent_lt hparent) h), Tree.ancestors_eq t id, hparent]
    rfl

/-- A node and all below it as text. -/
def write (t : Tree) (id : Nat) : Option String :=
  match _h : node t id with
  | none => none
  | some n => do
    let content ← n.children.attach.mapM fun c => write t c.1
    return match n.kind with
      | .root => String.join content
      | .text body => body
      | .markup spelling => spelling
      | .element e => enclose e n.children.isEmpty (String.join content)
termination_by t.size - id
decreasing_by
  have hc : c.1 ∈ t.children id := by
    rw [children_of_node _h]
    exact c.2
  have := lt_of_mem_children hc
  omega

theorem mapM_eq_some {α β : Type} {f : α → Option β} {g : α → β} {as : List α}
    (h : ∀ a ∈ as, f a = some (g a)) : as.mapM f = some (as.map g) := by
  induction as with
  | nil => rfl
  | cons a as ih =>
    obtain ⟨ha, has⟩ := List.forall_mem_cons.1 h
    rw [List.mapM_cons, ha, ih has]
    rfl

theorem write_eq {t : Tree} {id : Nat} (h : id < t.size) : write t id = some (t.write id) := by
  induction id using induction_children (t := t) with
  | step id ih =>
    have hcontent : (t.node id).children.attach.mapM (fun c => write t c.1) =
        some ((t.children id).map t.write) := by
      rw [mapM_eq_some (g := fun c => t.write c.1) fun c _ => ih c.1 c.2 (lt_of_mem_children c.2).2]
      exact congrArg some List.attach_map_val
    rw [write]
    split
    · rename_i hn
      rw [node_eq h] at hn
      cases hn
    · rename_i n hn
      obtain rfl := node_eq_some hn
      rw [hcontent, Tree.write_eq]
      rfl

/-! ## Searches of a tree -/

def serialize (t : Tree) : Option String := write t root

def elementsNamed (t : Tree) (id : Nat) (tag : String) : Option (List Nat) := do
  select t (·.hasName tag) (← descendants t id)

theorem elementsNamed_eq {t : Tree} {id : Nat} (h : id < t.size) (tag : String) :
    elementsNamed t id tag = some (t.elementsNamed id tag) := by
  rw [elementsNamed, descendants_eq h]
  exact select_eq _ fun n hn => (lt_of_mem_descendants hn).2

def ancestorNamed (t : Tree) (id : Nat) (tag : String) : Option (Option Nat) := do
  return (← select t (·.hasName tag) (← ancestors t id)).head?

theorem ancestorNamed_eq {t : Tree} {id : Nat} (h : id < t.size) (tag : String) :
    ancestorNamed t id tag = some (t.ancestorNamed id tag) := by
  have hsize : ∀ n ∈ t.ancestors id, n < t.size := fun n hn =>
    Nat.lt_trans (lt_of_mem_ancestors hn) h
  rw [ancestorNamed, ancestors_eq h]
  show (do return (← select t _ (t.ancestors id)).head?) = _
  rw [select_eq _ hsize]
  exact congrArg some List.head?_filter

def text (t : Tree) (id : Nat) : Option String := do
  match (← node t id).kind with
  | .text body => return body
  | _ => return String.join ((← (← descendants t id).mapM (node t)).filterMap (·.kind.text?))

theorem text_eq {t : Tree} {id : Nat} (h : id < t.size) : text t id = some (t.text id) := by
  have hnodes : (t.descendants id).mapM (node t) = some ((t.descendants id).map t.node) :=
    mapM_eq_some fun n hn => node_eq (lt_of_mem_descendants hn).2
  have hjoin : String.join (((t.descendants id).map t.node).filterMap (·.kind.text?)) =
      String.join ((t.descendants id).filterMap t.text?) := by
    rw [List.filterMap_map]
    rfl
  have hkind : (t.node id).kind = t.kind id := rfl
  rw [text, node_eq h, Tree.text, text?]
  simp only [Option.bind_eq_bind, Option.bind_some, Option.pure_def, descendants_eq h, hnodes,
    hjoin, hkind]
  cases t.kind id <;> rfl

end Checked

/-- Whatever a tree is asked for, all look-ups find a node. -/
structure Found (t : Tree) : Prop where
  descendants : ∀ id < t.size, Checked.descendants t id = some (t.descendants id)
  ancestors : ∀ id < t.size, Checked.ancestors t id = some (t.ancestors id)
  elementsNamed : ∀ id < t.size, ∀ tag,
    Checked.elementsNamed t id tag = some (t.elementsNamed id tag)
  ancestorNamed : ∀ id < t.size, ∀ tag,
    Checked.ancestorNamed t id tag = some (t.ancestorNamed id tag)
  text : ∀ id < t.size, Checked.text t id = some (t.text id)
  serialize : Checked.serialize t = some t.serialize

theorem found {t : Tree} (h : 0 < t.size) : t.Found where
  descendants _ := Checked.descendants_eq
  ancestors _ := Checked.ancestors_eq
  elementsNamed _ hid := Checked.elementsNamed_eq hid
  ancestorNamed _ hid := Checked.ancestorNamed_eq hid
  text _ := Checked.text_eq
  serialize := Checked.write_eq h

end Markup.Tree

/-! ## Searches of a page -/

namespace Page

namespace Checked

def titleNode (p : Page) : Option (Option Nat) := do
  return (← Tree.Checked.elementsNamed p.tree Tree.root "title").head?

def title (p : Page) : Option (Option String) := do
  match ← titleNode p with
  | none => return none
  | some id => return some (← Tree.Checked.text p.tree id)

def headings (p : Page) (tag className : String) : Option (List Nat) := do
  Tree.Checked.select p.tree (·.hasClass className)
    (← Tree.Checked.elementsNamed p.tree Tree.root tag)

def tables (p : Page) : Option (List Nat) :=
  Tree.Checked.elementsNamed p.tree Tree.root "table"

def firstCell (p : Page) (table : Nat) : Option (Option Nat) := do
  return (← Tree.Checked.elementsNamed p.tree table "td").head?

def rowOf (p : Page) (cell : Nat) : Option (Option Nat) := do
  let above ← Tree.Checked.ancestorNamed p.tree cell "tr"
  match above.or (← Tree.Checked.node p.tree cell).parent with
  | none => return none
  | some id =>
    return if (← Tree.Checked.node p.tree id).kind.element?.isSome then some id else none

end Checked

/-- Whatever is searched for on a page, all look-ups find a node. -/
structure Found (p : Page) : Prop where
  titleNode : Checked.titleNode p = some p.titleNode
  title : Checked.title p = some p.title
  headings : ∀ tag className, Checked.headings p tag className = some (p.headings tag className)
  tables : Checked.tables p = some p.tables
  firstCell : ∀ table < p.tree.size, Checked.firstCell p table = some (p.firstCell table)
  rowOf : ∀ cell < p.tree.size, Checked.rowOf p cell = some (p.rowOf cell)

section
variable {p : Page}

theorem titleNode_lt {id : Nat} (h : p.titleNode = some id) : id < p.tree.size :=
  (Tree.lt_of_mem_descendants (List.mem_filter.1 (List.mem_of_mem_head? h)).1).2

theorem found (h : 0 < p.tree.size) : p.Found := by
  have hnamed : ∀ tag, Tree.Checked.elementsNamed p.tree Tree.root tag =
      some (p.tree.elementsNamed Tree.root tag) := Tree.Checked.elementsNamed_eq h
  have htitle : Checked.titleNode p = some p.titleNode := by
    rw [Checked.titleNode, hnamed]
    rfl
  refine ⟨htitle, ?_, ?_, hnamed "table", ?_, ?_⟩
  · rw [Checked.title, htitle, title]
    cases ht : p.titleNode with
    | none => rfl
    | some id =>
      show (do return some (← Tree.Checked.text p.tree id)) = _
      rw [Tree.Checked.text_eq (titleNode_lt ht)]
      rfl
  · intro tag className
    rw [Checked.headings, hnamed]
    exact Tree.Checked.select_eq _ fun n hn =>
      (Tree.lt_of_mem_descendants (List.mem_filter.1 hn).1).2
  · intro table ht
    rw [Checked.firstCell, Tree.Checked.elementsNamed_eq ht]
    rfl
  · intro cell hc
    have hrow : ∀ id, (p.tree.ancestorNamed cell "tr").or (p.tree.parent cell) = some id →
        id < p.tree.size := by
      intro id hid
      rcases Option.or_eq_some_iff.1 hid with hid | ⟨-, hid⟩
      · have hmem := Tree.lt_of_mem_ancestors (List.mem_of_find?_eq_some hid)
        exact Nat.lt_trans hmem hc
      · exact Nat.lt_trans (Tree.parent_lt hid) hc
    rw [Checked.rowOf, Tree.Checked.ancestorNamed_eq hc, Tree.Checked.node_eq hc, rowOf]
    show (match (p.tree.ancestorNamed cell "tr").or (p.tree.parent cell) with
      | none => _ | some id => _) = _
    cases hor : (p.tree.ancestorNamed cell "tr").or (p.tree.parent cell) with
    | none => rfl
    | some id =>
      show (do return if (← Tree.Checked.node p.tree id).kind.element?.isSome then _ else _) = _
      rw [Tree.Checked.node_eq (hrow id hor), Option.filter_some]
      rfl

end

end Page

/-! ## All trees that edits make -/

namespace Markup

/-- Carries out edits one after the other, or `none` if one of them names a number without a
node. -/
def Edit.runAll? (t : Tree) (edits : List Edit) : Option Tree :=
  edits.foldlM (fun t e => (e.run? t).map Prod.fst) t

/-- An edit keeps the links in order and takes no node away. -/
theorem Tree.Linked.run? {t u : Tree} {e : Edit} {o : Edit.Outcome} (h : t.Linked)
    (hr : e.run? t = some (u, o)) : u.Linked ∧ t.size ≤ u.size := by
  cases e with
  | append parent kind =>
    simp only [Edit.run?] at hr
    split at hr
    · rename_i hp
      have hlt := of_decide_eq_true hp
      cases hr
      rw [Tree.size_appendChild t hlt]
      exact ⟨h.appendChild hlt kind, Nat.le_succ _⟩
    · cases hr
  | replaceText node pattern replacement =>
    simp only [Edit.run?] at hr
    split at hr
    · cases hr
      exact ⟨h.replaceText node pattern replacement, by simp⟩
    · cases hr
  | setText node body =>
    simp only [Edit.run?] at hr
    split at hr
    · rename_i hn
      have hlt := of_decide_eq_true hn
      cases hr
      rw [Tree.size_setText hlt]
      exact ⟨h.setText hlt body, Nat.le_succ _⟩
    · cases hr
  | detach node =>
    simp only [Edit.run?] at hr
    split at hr
    · cases hr
      exact ⟨h.detach node, by simp⟩
    · cases hr

theorem Tree.Linked.runAll? {t u : Tree} {edits : List Edit} (h : t.Linked)
    (hr : Edit.runAll? t edits = some u) : u.Linked ∧ t.size ≤ u.size := by
  induction edits generalizing t with
  | nil =>
    cases hr
    exact ⟨h, Nat.le_refl _⟩
  | cons e edits ih =>
    rw [Edit.runAll?, List.foldlM_cons] at hr
    obtain ⟨m, hm, hrest⟩ := Option.bind_eq_some_iff.1 hr
    obtain ⟨⟨m', o⟩, hedit, rfl⟩ := Option.map_eq_some_iff.1 hm
    obtain ⟨hlinked, hsize⟩ := h.run? hedit
    obtain ⟨hu, hle⟩ := ih hlinked hrest
    exact ⟨hu, Nat.le_trans hsize hle⟩

namespace Tree

/-- Each of the nodes above a node is the parent of the one in front of it, and the last of them has
none. -/
theorem isChain_ancestors (t : Tree) (id : Nat) :
    (id :: t.ancestors id).IsChain (fun c p => t.parent c = some p) ∧
      t.parent ((id :: t.ancestors id).getLast (List.cons_ne_nil _ _)) = none := by
  induction id using Nat.strongRecOn with
  | ind id ih =>
    rw [ancestors_eq]
    cases hp : t.parent id with
    | none => exact ⟨.singleton id, hp⟩
    | some p =>
      obtain ⟨hchain, hlast⟩ := ih p (parent_lt hp)
      exact ⟨List.isChain_cons_cons.2 ⟨hp, hchain⟩, hlast⟩

/-- A node is below another just when steps from parent to child lead to it. -/
theorem mem_descendants_iff_transGen {t : Tree} {id n : Nat} :
    n ∈ t.descendants id ↔ Relation.TransGen (fun p c => c ∈ t.children p) id n := by
  constructor
  · intro hn
    induction id using induction_children (t := t) with
    | step id ih =>
      rw [descendants_eq, List.mem_flatMap] at hn
      obtain ⟨c, hc, hn⟩ := hn
      rcases List.mem_cons.1 hn with rfl | hn
      · exact .single hc
      · exact .head hc (ih c hc hn)
  · intro hn
    induction hn with
    | single hc => exact mem_descendants_of_mem_children hc
    | tail _ hc ih => exact mem_descendants_iff.2 ⟨_, .inr ih, hc⟩

end Tree

/-- In a tree that came about by edits, parents and children agree, no node is the same child twice,
parents have lower numbers than their children, all of which are in the arena, and nothing is above
the root. So every way up ends, every node below another is listed once, and no walk over the tree
or search of a page meets a number without a node. -/
theorem links_of_edits {edits : List Edit} {t : Tree} (h : Edit.runAll? .empty edits = some t) :
    t.Linked ∧
      (∀ c p, t.parent c = some p → p < c ∧ c < t.size) ∧
      (∀ p, ∀ c ∈ t.children p, p < c ∧ c < t.size) ∧
      (∀ id, (id :: t.ancestors id).IsChain (fun c p => t.parent c = some p) ∧
        t.parent ((id :: t.ancestors id).getLast (List.cons_ne_nil _ _)) = none) ∧
      (∀ id, (t.descendants id).Nodup ∧
        ∀ n, n ∈ t.descendants id ↔ Relation.TransGen (fun p c => t.parent c = some p) id n) ∧
      t.Found ∧ ∀ p : Page, p.tree = t → p.Found := by
  obtain ⟨hlinked, hsize⟩ := Tree.linked_empty.runAll? h
  have hpos : 0 < t.size := Nat.lt_of_lt_of_le Nat.one_pos hsize
  have hlinks : (fun p c => c ∈ t.children p) = fun p c => t.parent c = some p :=
    funext fun p => funext fun c => propext hlinked.mem_children_iff
  refine ⟨hlinked, ?_, ?_, t.isChain_ancestors, ?_, Tree.found hpos, ?_⟩
  · exact fun c p hp => Tree.lt_of_mem_children (hlinked.mem_children_iff.2 hp)
  · exact fun p c hc => Tree.lt_of_mem_children hc
  · intro id
    refine ⟨(List.nodup_cons.1 (hlinked.nodup_descendants id)).2, fun n => ?_⟩
    rw [Tree.mem_descendants_iff_transGen, hlinks]
  · rintro p rfl
    exact Page.found hpos

/-- A text is put below two elements, its own element is emptied, and the other taken away. -/
theorem links_of_five_edits :
    ∃ t, Edit.runAll? .empty
        [.append 0 (.element ⟨"p", "", [], false⟩), .append 1 (.text "a"),
          .append 0 (.element ⟨"br", "", [], true⟩), .setText 1 "b", .detach 3] = some t ∧
      t.size = 5 ∧ t.Linked ∧ t.Found := by
  have hw : (Edit.runAll? .empty
      [.append 0 (.element ⟨"p", "", [], false⟩), .append 1 (.text "a"),
        .append 0 (.element ⟨"br", "", [], true⟩), .setText 1 "b", .detach 3]).map Tree.size =
      some 5 := by
    decide
  obtain ⟨t, ht, hsize⟩ := Option.map_eq_some_iff.1 hw
  obtain ⟨hlinked, -, -, -, -, hfound, -⟩ := links_of_edits ht
  exact ⟨t, ht, hsize, hlinked, hfound⟩

end Markup

end PageMend
