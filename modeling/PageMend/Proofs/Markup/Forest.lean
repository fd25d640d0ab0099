import PageMend.Markup.Tree.Edit

/-!
# Trees as forests

What lies below a node, taken out of the arena: a `Forest` of nodes in a row, each with what lies
below it. `Tree.content` is this forest with the numbers of the nodes, and `Tree.forest` the same
with their kinds, which is all that is written.

The walks over a tree are plain recursions over its forest (`descendants_eq_preorder`,
`toList_write`), and adding a node changes the forest at one place (`content_appendChild`). A node
is below another just when it is a child of that or of a node below it (`mem_descendants_iff`).
-/

namespace PageMend.Markup

/-- Nodes in a row, each with what lies below it. -/
inductive Forest (α : Type) where
  | nil
  | node (label : α) (content next : Forest α)
  deriving DecidableEq, Repr

namespace Forest

variable {α β : Type}

/-- Two rows as one. -/
def append : Forest α → Forest α → Forest α
  | nil, f => f
  | node a content next, f => node a content (append next f)

instance : Append (Forest α) := ⟨append⟩

/-- A node with nothing below it. -/
def leaf (a : α) : Forest α := node a nil nil

/-- The same forest with other labels. -/
def map (f : α → β) : Forest α → Forest β
  | nil => nil
  | node a content next => node (f a) (content.map f) (next.map f)

/-- The labels in document order. -/
def preorder : Forest α → List α
  | nil => []
  | node a content next => a :: (content.preorder ++ next.preorder)

/-- Whether there is no node. -/
def isNil : Forest α → Bool
  | nil => true
  | node _ _ _ => false

/-- Nodes in a row, each with the forest below it. -/
def row (below : α → Forest α) (as : List α) : Forest α :=
  as.foldr (fun a rest => node a (below a) rest) nil

@[simp] theorem nil_append (f : Forest α) : nil ++ f = f := rfl

@[simp] theorem node_append (a : α) (content next f : Forest α) :
    node a content next ++ f = node a content (next ++ f) := rfl

@[simp] theorem append_nil (f : Forest α) : f ++ nil = f := by
  induction f with
  | nil => rfl
  | node a content next _ ih => rw [node_append, ih]

theorem append_assoc (f g h : Forest α) : f ++ g ++ h = f ++ (g ++ h) := by
  induction f with
  | nil => rfl
  | node a content next _ ih => rw [node_append, node_append, node_append, ih]

@[simp] theorem map_nil (f : α → β) : (nil : Forest α).map f = nil := rfl

@[simp] theorem map_node (f : α → β) (a : α) (content next : Forest α) :
    (node a content next).map f = node (f a) (content.map f) (next.map f) := rfl

@[simp] theorem map_leaf (f : α → β) (a : α) : (leaf a).map f = leaf (f a) := rfl

@[simp] theorem map_append (f : α → β) (g h : Forest α) :
    (g ++ h).map f = g.map f ++ h.map f := by
  induction g with
  | nil => rfl
  | node a content next _ ih => rw [node_append, map_node, map_node, ih, node_append]

/-- Labels that do not occur do not matter. -/
theorem map_congr {f g : α → β} {h : Forest α} (hfg : ∀ a ∈ h.preorder, f a = g a) :
    h.map f = h.map g := by
  induction h with
  | nil => rfl
  | node a content next ihc ihn =>
    have hc := ihc fun b hb => hfg b (by simp [preorder, hb])
    have hn := ihn fun b hb => hfg b (by simp [preorder, hb])
    rw [map_node, map_node, hc, hn, hfg a (by simp [preorder])]

@[simp] theorem preorder_append (f g : Forest α) :
    (f ++ g).preorder = f.preorder ++ g.preorder := by
  induction f with
  | nil => rfl
  | node a content next _ ih => simp [preorder, ih]

@[simp] theorem preorder_leaf (a : α) : (leaf a).preorder = [a] := rfl

@[simp] theorem isNil_map (f : α → β) (g : Forest α) : (g.map f).isNil = g.isNil := by
  cases g <;> rfl

@[simp] theorem row_nil (below : α → Forest α) : row below [] = nil := rfl

@[simp] theorem row_cons (below : α → Forest α) (a : α) (as : List α) :
    row below (a :: as) = node a (below a) (row below as) := rfl

theorem row_append (below : α → Forest α) (as bs : List α) :
    row below (as ++ bs) = row below as ++ row below bs := by
  induction as with
  | nil => rfl
  | cons a as ih => rw [List.cons_append, row_cons, row_cons, ih, node_append]

@[simp] theorem isNil_row (below : α → Forest α) (as : List α) :
    (row below as).isNil = as.isEmpty := by
  cases as <;> rfl

theorem preorder_row (below : α → Forest α) (as : List α) :
    (row below as).preorder = as.flatMap fun a => a :: (below a).preorder := by
  induction as with
  | nil => rfl
  | cons a as ih => simp [preorder, ih]

/-- Adds a forest behind what lies below the nodes with that label. -/
def graft [DecidableEq α] : Forest α → α → Forest α → Forest α
  | nil, _, _ => nil
  | node b content next, a, f =>
    node b (if b = a then content.graft a f ++ f else content.graft a f) (next.graft a f)

@[simp] theorem graft_append [DecidableEq α] (a : α) (f g h : Forest α) :
    (g ++ h).graft a f = g.graft a f ++ h.graft a f := by
  induction g with
  | nil => rfl
  | node b content next _ ih => simp [graft, ih]

/-- Where the label does not occur, nothing is added. -/
theorem graft_of_not_mem [DecidableEq α] {a : α} {f g : Forest α} (h : a ∉ g.preorder) :
    g.graft a f = g := by
  induction g with
  | nil => rfl
  | node b content next ihc ihn =>
    simp only [preorder, List.mem_cons, List.mem_append, not_or] at h
    obtain ⟨hb, hc, hn⟩ := h
    rw [graft, if_neg (Ne.symm hb), ihc hc, ihn hn]

end Forest

/-! ## Tags of an element -/

namespace Element

def startTag (e : Element) : Token := .startTag e.name.toList e.attributes.toList

def emptyTag (e : Element) : Token := .emptyTag e.name.toList e.attributes.toList

def endTag (e : Element) : Token := .endTag e.name.toList

/-- How an element is spelled around its content. -/
def spelling (e : Element) (childless : Bool) (content : List Char) : List Char :=
  if childless && e.selfClosing then e.emptyTag.spelling
  else if childless && e.isVoid then e.startTag.spelling
  else e.startTag.spelling ++ content ++ e.endTag.spelling

theorem toList_enclose (e : Element) (childless : Bool) (content : String) :
    (Tree.enclose e childless content).toList = e.spelling childless content.toList := by
  unfold Tree.enclose spelling
  split
  · simp [emptyTag]
  · split
    · simp [startTag]
    · simp [startTag, endTag]

end Element

/-- How a node is spelled around its content. -/
def Kind.spelling (childless : Bool) (content : List Char) : Kind → List Char
  | .root => content
  | .element e => e.spelling childless content
  | .text body => body.toList
  | .markup spelling => spelling.toList

/-- A forest as text. -/
def Forest.spelling : Forest Kind → List Char
  | .nil => []
  | .node k content next => k.spelling content.isNil content.spelling ++ next.spelling

@[simp] theorem Forest.spelling_nil : (Forest.nil : Forest Kind).spelling = [] := rfl

@[simp] theorem Forest.spelling_node (k : Kind) (content next : Forest Kind) :
    (Forest.node k content next).spelling =
      k.spelling content.isNil content.spelling ++ next.spelling := rfl

@[simp] theorem Forest.spelling_append (f g : Forest Kind) :
    (f ++ g).spelling = f.spelling ++ g.spelling := by
  induction f with
  | nil => rfl
  | node k content next _ ih => simp [ih]

namespace Tree

/-! ## Below a node -/

/-- What holds of a node if it holds of its children holds of all nodes. -/
theorem induction_children {t : Tree} {P : Nat → Prop}
    (step : ∀ id, (∀ c ∈ t.children id, P c) → P id) (id : Nat) : P id := by
  induction hn : t.size - id using Nat.strongRecOn generalizing id with
  | ind n ih =>
    apply step id
    intro c hc
    have hlt := lt_of_mem_children hc
    exact ih (t.size - c) (by omega) c rfl

section
variable {t : Tree}

theorem mem_descendants_of_mem_children {id c : Nat} (h : c ∈ t.children id) :
    c ∈ t.descendants id := by
  rw [descendants_eq, List.mem_flatMap]
  exact ⟨c, h, List.mem_cons_self⟩

/-- A node below another is a child of it or of a node below it. -/
theorem mem_descendants_iff {id n : Nat} :
    n ∈ t.descendants id ↔ ∃ p, (p = id ∨ p ∈ t.descendants id) ∧ n ∈ t.children p := by
  induction id using induction_children (t := t) with
  | step id ih =>
    constructor
    · intro hn
      rw [descendants_eq, List.mem_flatMap] at hn
      obtain ⟨c, hc, hn⟩ := hn
      rcases List.mem_cons.1 hn with rfl | hn
      · exact ⟨id, .inl rfl, hc⟩
      · obtain ⟨p, hp, hnp⟩ := (ih c hc).1 hn
        refine ⟨p, .inr ?_, hnp⟩
        rw [descendants_eq, List.mem_flatMap]
        exact ⟨c, hc, List.mem_cons.2 hp⟩
    · rintro ⟨p, rfl | hp, hn⟩
      · exact mem_descendants_of_mem_children hn
      · rw [descendants_eq, List.mem_flatMap] at hp ⊢
        obtain ⟨c, hc, hp⟩ := hp
        exact ⟨c, hc, List.mem_cons_of_mem _ ((ih c hc).2 ⟨p, List.mem_cons.1 hp, hn⟩)⟩

theorem mem_descendants_trans {id p n : Nat} (hp : p ∈ t.descendants id)
    (hn : n ∈ t.descendants p) : n ∈ t.descendants id := by
  induction p using induction_children (t := t) generalizing n with
  | step p ih =>
    rw [descendants_eq, List.mem_flatMap] at hn
    obtain ⟨c, hc, hn⟩ := hn
    have hcid : c ∈ t.descendants id := mem_descendants_iff.2 ⟨p, .inr hp, hc⟩
    rcases List.mem_cons.1 hn with rfl | hn
    · exact hcid
    · exact ih c hc hcid hn

theorem lt_of_mem_descendants {id n : Nat} (h : n ∈ t.descendants id) :
    id < n ∧ n < t.size := by
  induction id using induction_children (t := t) with
  | step id ih =>
    rw [descendants_eq, List.mem_flatMap] at h
    obtain ⟨c, hc, hn⟩ := h
    have hlt := lt_of_mem_children hc
    rcases List.mem_cons.1 hn with rfl | hn
    · exact hlt
    · have := ih c hc hn
      omega

end

/-! ## The forest of a tree -/

/-- What lies below a node, as the numbers of the nodes. -/
def content (t : Tree) (id : Nat) : Forest Nat :=
  (t.children id).attach.foldr (fun c rest => .node c.1 (content t c.1) rest) .nil
termination_by t.size - id
decreasing_by
  have := lt_of_mem_children c.2
  omega

theorem content_eq (t : Tree) (id : Nat) : t.content id = Forest.row t.content (t.children id) := by
  rw [content]
  exact List.foldr_attach (l := t.children id) (f := fun c rest => Forest.node c (t.content c) rest)
    (b := .nil)

/-- What lies below a node, as the kinds of the nodes. -/
def forest (t : Tree) (id : Nat) : Forest Kind := (t.content id).map t.kind

/-- Some nodes in a row, each with what lies below it. -/
def rowForest (t : Tree) (ids : List Nat) : Forest Kind := (Forest.row t.content ids).map t.kind

@[simp] theorem rowForest_nil (t : Tree) : t.rowForest [] = .nil := rfl

@[simp] theorem rowForest_cons (t : Tree) (id : Nat) (ids : List Nat) :
    t.rowForest (id :: ids) = .node (t.kind id) (t.forest id) (t.rowForest ids) := rfl

theorem forest_eq (t : Tree) (id : Nat) : t.forest id = t.rowForest (t.children id) := by
  rw [forest, content_eq, rowForest]

/-- Induction over a tree and the rows in it: what holds of the empty row, passes from a node and
the row behind it to the whole row, and from the row of its children to a node. -/
theorem induction_rows {t : Tree} {P : Nat → Prop} {Q : List Nat → Prop} (nil : Q [])
    (cons : ∀ c cs, P c → Q cs → Q (c :: cs)) (node : ∀ id, Q (t.children id) → P id)
    (id : Nat) : P id := by
  induction id using induction_children (t := t) with
  | step id ih =>
    have hrow : ∀ cs ⊆ t.children id, Q cs := by
      intro cs
      induction cs with
      | nil => exact fun _ => nil
      | cons c cs ihc =>
        intro hsub
        obtain ⟨hc, hcs⟩ := List.cons_subset.1 hsub
        exact cons c cs (ih c hc) (ihc hcs)
    exact node id (hrow _ (List.Subset.refl _))

theorem descendants_eq_preorder (t : Tree) (id : Nat) :
    t.descendants id = (t.content id).preorder := by
  induction id using induction_children with
  | step id ih =>
    rw [descendants_eq, content_eq, Forest.preorder_row, List.flatMap_def, List.flatMap_def]
    exact congrArg List.flatten (List.map_congr_left fun c hc => by rw [ih c hc])

theorem isNil_forest (t : Tree) (id : Nat) : (t.forest id).isNil = (t.children id).isEmpty := by
  rw [forest, Forest.isNil_map, content_eq, Forest.isNil_row]

/-- A node is written as its kind and its forest say. -/
theorem toList_write (t : Tree) (id : Nat) :
    (t.write id).toList = (t.kind id).spelling (t.forest id).isNil (t.forest id).spelling := by
  induction id using induction_rows (t := t)
    (Q := fun cs => (String.join (cs.map t.write)).toList = (t.rowForest cs).spelling) with
  | nil => rfl
  | cons c cs hc hcs =>
    rw [List.map_cons, String.join_cons, String.toList_append, hc, hcs]
    rfl
  | node id hrow =>
    rw [← forest_eq] at hrow
    rw [write_eq, isNil_forest]
    cases t.kind id with
    | root => exact hrow
    | element e =>
      show (enclose e _ _).toList = e.spelling _ _
      rw [Element.toList_enclose, hrow]
    | text body => rfl
    | markup spelling => rfl

/-- A page is written as the forest below its root. -/
theorem toList_serialize {t : Tree} (h : t.kind root = .root) :
    t.serialize.toList = (t.forest root).spelling := by
  rw [serialize, toList_write, h]
  rfl

/-! ### Adding a node -/

section
variable {t : Tree} {p : Nat} (hp : p < t.size) (k : Kind)
include hp

theorem node_appendChild (id : Nat) :
    (t.appendChild p k).node id =
      if id = p then { t.node id with children := t.children id ++ [t.size] }
      else if id = t.size then ⟨k, some p, []⟩
      else t.node id := by
  unfold appendChild
  rw [dif_pos hp]
  unfold node children
  simp only [Array.getElem?_modify, Array.getElem?_push]
  unfold size at hp ⊢
  by_cases hid : id = p
  · subst hid
    have hne : id ≠ t.nodes.size := by omega
    have hin : t.nodes[id]? = some t.nodes[id] := Array.getElem?_eq_getElem hp
    simp [hne, hin, node]
  · by_cases hs : id = t.nodes.size
    · have hne : t.nodes.size ≠ p := Nat.ne_of_gt hp
      simp [hs, hne, Ne.symm hne]
    · simp [hid, hs, Ne.symm hid]

theorem kind_appendChild (id : Nat) :
    (t.appendChild p k).kind id = if id = t.size then k else t.kind id := by
  unfold kind
  rw [node_appendChild hp]
  split
  · rename_i hid
    rw [if_neg (by omega)]
  · split <;> rfl

theorem parent_appendChild (id : Nat) :
    (t.appendChild p k).parent id = if id = t.size then some p else t.parent id := by
  unfold parent
  rw [node_appendChild hp]
  split
  · rename_i hid
    rw [if_neg (by omega)]
  · split <;> rfl

theorem children_appendChild (id : Nat) :
    (t.appendChild p k).children id =
      if id = p then t.children id ++ [t.size] else if id = t.size then [] else t.children id := by
  unfold children
  rw [node_appendChild hp]
  split
  · rfl
  · split <;> rfl

end

theorem children_eq_nil {t : Tree} {id : Nat} (h : t.size ≤ id) : t.children id = [] := by
  unfold children node
  rw [Array.getElem?_eq_none h]
  rfl

/-- A new node stands behind all that its parent holds, wherever the parent stands. -/
theorem content_appendChild {t : Tree} {p : Nat} (hp : p < t.size) (k : Kind) (id : Nat) :
    (t.appendChild p k).content id =
      if id = p then (t.content id).graft p (.leaf t.size) ++ .leaf t.size
      else (t.content id).graft p (.leaf t.size) := by
  induction id using induction_rows (t := t) (Q := fun cs =>
    Forest.row (t.appendChild p k).content cs =
      (Forest.row t.content cs).graft p (.leaf t.size)) with
  | nil => rfl
  | cons c cs hc hcs =>
    rw [Forest.row_cons, Forest.row_cons, hc, hcs]
    rfl
  | node id hrow =>
    have hnew : (t.appendChild p k).content t.size = .nil := by
      rw [content_eq, children_appendChild hp, if_neg (by omega), if_pos rfl]
      rfl
    rw [content_eq, content_eq t id, children_appendChild hp]
    split
    · rw [Forest.row_append, hrow, Forest.row_cons, hnew]
      rfl
    · split
      · rename_i hs
        rw [children_eq_nil (Nat.le_of_eq hs.symm)]
        rfl
      · exact hrow

end Tree

end PageMend.Markup
