import PageMend.Proofs.Markup.Lookup

/-!
# Walks that go step by step

A walk downward need not recurse. `Cursor` keeps the nodes that it has found and not yet handed out
on a stack: each step hands out the node on top and pushes its children, the last one first. Step by
step it hands out just what `descendants` lists (`Cursor.yields_below_iff`). What carries this is
the stack from its top on: what is still to come are its nodes, each with all that is below it.

The way up leads from a node to all that it is below (`mem_ancestors_iff_transGen`), and a search on
it for a tag name finds the nearest element of that name (`ancestorNamed_eq_some_iff`).
-/

namespace PageMend.Markup

namespace Tree

/-! ## A walk with a stack -/

/-- A walk under way. The end of the array is the top of the stack. -/
structure Cursor where
  stack : Array Nat

namespace Cursor

/-- The walk over what is below a node. -/
def below (t : Tree) (id : Nat) : Cursor := ⟨(t.children id).reverse.toArray⟩

/-- Hands out the node on top of the stack, if there is one, and pushes its children. -/
def next? (t : Tree) (c : Cursor) : Option (Nat × Cursor) :=
  c.stack.back?.map fun id => (id, ⟨c.stack.pop ++ (t.children id).reverse.toArray⟩)

/-- A walk hands out some nodes one after the other, and then no more. -/
inductive Yields (t : Tree) : Cursor → List Nat → Prop
  | done {c : Cursor} (h : c.next? t = none) : Yields t c []
  | step {c c' : Cursor} {id : Nat} {ids : List Nat} (h : c.next? t = some (id, c'))
    (hrest : Yields t c' ids) : Yields t c (id :: ids)

/-- The nodes on the stack, from its top on. -/
def pending (c : Cursor) : List Nat := c.stack.toList.reverse

section
variable {t : Tree} {c : Cursor}

/-- A walk hands out one list of nodes only. -/
theorem Yields.unique {ids others : List Nat} (h : c.Yields t ids) (h' : c.Yields t others) :
    ids = others := by
  induction h generalizing others with
  | done hnone =>
    cases h' with
    | done => rfl
    | step hsome => rw [hnone] at hsome; cases hsome
  | step hsome _ ih =>
    cases h' with
    | done hnone => rw [hnone] at hsome; cases hsome
    | step hsome' hrest =>
      rw [hsome] at hsome'
      cases hsome'
      rw [ih hrest]

/-- At the start the children are on the stack, the first one on top. -/
theorem pending_below (t : Tree) (id : Nat) : (below t id).pending = t.children id := by
  simp [pending, below]

theorem next?_of_nil (h : c.pending = []) : c.next? t = none := by
  have hempty : c.stack = #[] := by simpa [pending] using h
  rw [next?, hempty]
  rfl

/-- A step replaces the node on top by its children. -/
theorem next?_of_cons {id : Nat} {rest : List Nat} (h : c.pending = id :: rest) :
    ∃ c', c.next? t = some (id, c') ∧ c'.pending = t.children id ++ rest := by
  have hstack : c.stack = rest.reverse.toArray.push id := by
    apply Array.toList_inj.1
    simpa [pending] using congrArg List.reverse h
  refine ⟨⟨rest.reverse.toArray ++ (t.children id).reverse.toArray⟩, ?_, ?_⟩
  · rw [next?, hstack, Array.back?_push, Array.pop_push]
    rfl
  · simp [pending]

/-- What is on the stack is handed out from the top on, each node in front of what is below it. -/
theorem yields_pending (t : Tree) (c : Cursor) :
    c.Yields t (c.pending.flatMap fun id => id :: t.descendants id) := by
  -- each step hands out one of the nodes that are still to come
  induction hn : (c.pending.flatMap fun id => id :: t.descendants id).length
    generalizing c with
  | zero =>
    cases hp : c.pending with
    | nil => exact .done (next?_of_nil hp)
    | cons id rest =>
      rw [hp, List.flatMap_cons] at hn
      cases hn
  | succ n ih =>
    cases hp : c.pending with
    | nil =>
      rw [hp] at hn
      cases hn
    | cons id rest =>
      obtain ⟨c', hnext, hpending⟩ := next?_of_cons (t := t) hp
      have hcome : (id :: rest).flatMap (fun id => id :: t.descendants id) =
          id :: c'.pending.flatMap fun id => id :: t.descendants id := by
        rw [hpending, List.flatMap_append, ← descendants_eq, List.flatMap_cons]
        rfl
      rw [hp, hcome, List.length_cons] at hn
      rw [hcome]
      exact .step hnext (ih c' (Nat.succ.inj hn))

/-- A walk from a node hands out what is below it in document order, and nothing else. -/
theorem yields_below_iff {id : Nat} {ids : List Nat} :
    (below t id).Yields t ids ↔ ids = t.descendants id := by
  have hyields := yields_pending t (below t id)
  rw [pending_below, ← descendants_eq] at hyields
  constructor
  · intro h
    exact h.unique hyields
  · rintro rfl
    exact hyields

end

end Cursor

/-! ## The way up -/

section
variable {t : Tree}

/-- The nodes above a node are those to which steps from child to parent lead. -/
theorem mem_ancestors_iff_transGen {n a : Nat} :
    a ∈ t.ancestors n ↔ Relation.TransGen (fun c p => t.parent c = some p) n a := by
  constructor
  · intro ha
    induction n using Nat.strongRecOn with
    | ind n ih =>
      obtain ⟨p, hp, ha⟩ := mem_ancestors_iff.1 ha
      rcases ha with rfl | ha
      · exact .single hp
      · exact .head hp (ih p (parent_lt hp) ha)
  · intro ha
    induction ha using Relation.TransGen.head_induction_on with
    | single hp => exact mem_ancestors_iff.2 ⟨a, hp, .inl rfl⟩
    | head hp _ ih => exact mem_ancestors_iff.2 ⟨_, hp, .inr ih⟩

/-- A node is an element with that tag name, up to the case of ASCII letters. -/
def HasTag (t : Tree) (tag : String) (id : Nat) : Prop :=
  ∃ e, t.kind id = .element e ∧ e.name.toList.map Char.toLower = tag.toList.map Char.toLower

theorem isNamed_iff_hasTag {tag : String} {id : Nat} :
    t.isNamed tag id = true ↔ t.HasTag tag id := by
  have hname : ∀ e : Element, e.hasName tag = true ↔
      e.name.toList.map Char.toLower = tag.toList.map Char.toLower := fun e => beq_iff_eq
  rw [isNamed, element?, HasTag]
  cases t.kind id with
  | element e => simp [Kind.element?, hname]
  | _ => simp [Kind.element?]

/-- The nearest element above a node with that tag name: every other one is above it. -/
structure IsNearest (t : Tree) (n : Nat) (tag : String) (a : Nat) : Prop where
  above : Relation.TransGen (fun c p => t.parent c = some p) n a
  hasTag : t.HasTag tag a
  nearest : ∀ b, Relation.TransGen (fun c p => t.parent c = some p) n b → t.HasTag tag b →
    b = a ∨ Relation.TransGen (fun c p => t.parent c = some p) a b

theorem isNearest_of_ancestorNamed {n a : Nat} {tag : String}
    (h : t.ancestorNamed n tag = some a) : t.IsNearest n tag a := by
  obtain ⟨hnamed, front, back, hsplit, hfront⟩ := List.find?_eq_some_iff_append.1 h
  have hback : back = t.ancestors a := ancestors_split hsplit
  constructor
  · rw [← mem_ancestors_iff_transGen, hsplit]
    exact List.mem_append_right front List.mem_cons_self
  · exact isNamed_iff_hasTag.1 hnamed
  · intro b hb htag
    rw [← mem_ancestors_iff_transGen, hsplit] at hb
    rcases List.mem_append.1 hb with hb | hb
    · -- what comes in front on the way has another name
      have hnot := hfront b hb
      rw [isNamed_iff_hasTag.2 htag] at hnot
      cases hnot
    · rw [← mem_ancestors_iff_transGen, ← hback]
      exact List.mem_cons.1 hb

/-- The search for a tag name on the way up finds the nearest element of that name. -/
theorem ancestorNamed_eq_some_iff {n a : Nat} {tag : String} :
    t.ancestorNamed n tag = some a ↔ t.IsNearest n tag a := by
  refine ⟨isNearest_of_ancestorNamed, fun h => ?_⟩
  have hsome : (t.ancestorNamed n tag).isSome = true := by
    apply List.find?_isSome.2
    exact ⟨a, mem_ancestors_iff_transGen.2 h.above, isNamed_iff_hasTag.2 h.hasTag⟩
  obtain ⟨b, hb⟩ := Option.isSome_iff_exists.1 hsome
  have hfound := isNearest_of_ancestorNamed hb
  -- of two that are nearest, each would be above the other
  rcases h.nearest b hfound.above hfound.hasTag with rfl | hab
  · exact hb
  · rcases hfound.nearest a h.above h.hasTag with rfl | hba
    · exact hb
    · have hlt := lt_of_mem_ancestors (mem_ancestors_iff_transGen.2 hab)
      have hgt := lt_of_mem_ancestors (mem_ancestors_iff_transGen.2 hba)
      exact absurd hlt (Nat.lt_asymm hgt)

end

end Tree

/-- In a tree that came about by edits, the walk with a stack hands out what is below a node: each
child in front of what is below that, the children in their order. A node is below another just when
the way up from it leads there. On that way a search for a tag name finds the nearest element of
that name, and then the node is below that element. -/
theorem traversals_of_edits {edits : List Edit} {t : Tree}
    (h : Edit.runAll? .empty edits = some t) :
    (∀ id ids, (Tree.Cursor.below t id).Yields t ids ↔ ids = t.descendants id) ∧
      (∀ id, t.descendants id = (t.children id).flatMap fun c => c :: t.descendants c) ∧
      (∀ a n, n ∈ t.descendants a ↔ Relation.TransGen (fun c p => t.parent c = some p) n a) ∧
      ∀ n tag a, (t.ancestorNamed n tag = some a ↔ t.IsNearest n tag a) ∧
        (t.ancestorNamed n tag = some a → n ∈ t.descendants a) := by
  obtain ⟨hlinked, -⟩ := Tree.linked_empty.runAll? h
  have habove : ∀ a n, n ∈ t.descendants a ↔
      Relation.TransGen (fun c p => t.parent c = some p) n a := by
    intro a n
    rw [← hlinked.mem_ancestors_iff_mem_descendants, Tree.mem_ancestors_iff_transGen]
  refine ⟨fun _ _ => Tree.Cursor.yields_below_iff, t.descendants_eq, habove, fun n tag a => ?_⟩
  refine ⟨Tree.ancestorNamed_eq_some_iff, fun hfound => ?_⟩
  exact (habove a n).2 (Tree.isNearest_of_ancestorNamed hfound).above

/-- A text in a cell of a row, and a second row that was taken away: the row is found from the text
by a name in other letters, and the second row is still above what it holds. -/
theorem traversals_of_seven_edits :
    ∃ t, Edit.runAll? .empty
        [.append 0 (.element ⟨"body", "", [], false⟩), .append 1 (.element ⟨"TR", "", [], false⟩),
          .append 2 (.element ⟨"td", "", [], false⟩), .append 3 (.text "a"),
          .append 1 (.element ⟨"tr", "", [], false⟩), .append 5 (.text "b"), .detach 5] = some t ∧
      (Tree.Cursor.below t 0).Yields t [1, 2, 3, 4] ∧
      t.ancestorNamed 4 "tr" = some 2 ∧ t.ancestorNamed 6 "tr" = some 5 ∧ 6 ∈ t.descendants 5 := by
  have hw : (Edit.runAll? .empty
      [.append 0 (.element ⟨"body", "", [], false⟩), .append 1 (.element ⟨"TR", "", [], false⟩),
        .append 2 (.element ⟨"td", "", [], false⟩), .append 3 (.text "a"),
        .append 1 (.element ⟨"tr", "", [], false⟩), .append 5 (.text "b"), .detach 5]).map
          (fun t => ((List.range 5).map t.children, [4, 3, 2, 6].map t.parent,
            [3, 2, 5].map (t.isNamed "tr"))) =
      some ([[1], [2], [3], [4], []], [some 3, some 2, some 1, some 5], [false, true, true]) := by
    decide
  obtain ⟨t, ht, hfacts⟩ := Option.map_eq_some_iff.1 hw
  simp only [Prod.mk.injEq] at hfacts
  obtain ⟨hchildren, hparents, hnames⟩ := hfacts
  simp [List.range_succ] at hchildren
  simp at hparents hnames
  obtain ⟨hwalk, -, -, hsearch⟩ := traversals_of_edits ht
  have hbelow : t.descendants 0 = [1, 2, 3, 4] := by
    simp [Tree.descendants_eq t 0, Tree.descendants_eq t 1, Tree.descendants_eq t 2,
      Tree.descendants_eq t 3, Tree.descendants_eq t 4, hchildren]
  have hinner : t.ancestorNamed 4 "tr" = some 2 := by
    simp [Tree.ancestorNamed, Tree.ancestors_eq t 4, Tree.ancestors_eq t 3, hparents, hnames]
  have houter : t.ancestorNamed 6 "tr" = some 5 := by
    simp [Tree.ancestorNamed, Tree.ancestors_eq t 6, hparents, hnames]
  exact ⟨t, ht, (hwalk 0 _).2 hbelow.symm, hinner, houter, (hsearch 6 "tr" 5).2 houter⟩

end PageMend.Markup
