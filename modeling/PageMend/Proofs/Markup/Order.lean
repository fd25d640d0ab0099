import PageMend.Proofs.Markup.Links

/-!
# Document order after an edit

Edits take nodes away, each with all that is below it, and may put a new node below one that has
lost all it held. `Tree.Cut` says this of the children of each node; what is left then stands in the
order in which it stood, and each new node directly behind the node that holds it
(`Cut.descendants`). Edits that follow one another are one such edit (`Cut.trans`).

Unlinking a node takes away the node and what is below it (`Linked.cut_detach`); replacing what a
node holds by a text takes away what is below the node and adds one (`Linked.cut_setText`).
-/

namespace PageMend.Markup.Tree

/-- A tree from which some nodes are lost, and in which some nodes hold new ones. It is told for the
nodes that were there before and are not lost. -/
structure Cut (t u : Tree) (lost : Nat → Prop) [DecidablePred lost] (added : Nat → List Nat) :
    Prop where
  /-- What is below a lost node is lost. -/
  below : ∀ {p c}, lost p → c ∈ t.children p → lost c
  children : ∀ {p}, p < t.size → ¬ lost p →
    u.children p = (t.children p).filter (¬ lost ·) ++ added p
  /-- A node with new children has lost all the others. -/
  alone : ∀ {p}, p < t.size → ¬ lost p → added p ≠ [] → ∀ c ∈ t.children p, lost c
  fresh : ∀ {p n}, p < t.size → ¬ lost p → n ∈ added p → t.size ≤ n ∧ u.children n = []

section
variable {t u v : Tree} {lost lost' : Nat → Prop} [DecidablePred lost] [DecidablePred lost']
  {added added' : Nat → List Nat}

theorem cut_refl (t : Tree) : t.Cut t (fun _ => False) fun _ => [] where
  below h := h.elim
  children := by simp
  alone _ _ hne := absurd rfl hne
  fresh _ _ hn := nomatch hn

/-- Only the children of the nodes matter. -/
theorem Cut.of_children (h : t.Cut u lost added) (hv : ∀ i, v.children i = u.children i) :
    t.Cut v lost added where
  below := h.below
  children hp hl := by rw [hv, h.children hp hl]
  alone := h.alone
  fresh hp hl hn := by
    rw [hv]
    exact h.fresh hp hl hn

/-- What is lost may be told in another way. -/
theorem Cut.congr (h : t.Cut u lost added) (hbelow : ∀ {p c}, lost' p → c ∈ t.children p → lost' c)
    (hlost : ∀ n < t.size, lost' n ↔ lost n)
    (hadded : ∀ p < t.size, ¬ lost' p → added' p = added p) : t.Cut u lost' added' where
  below := hbelow
  children := by
    intro p hp hl
    rw [hadded p hp hl, h.children hp (mt (hlost p hp).2 hl)]
    refine congrArg (· ++ _) (List.filter_congr fun c hc => ?_)
    simp [hlost c (lt_of_mem_children hc).2]
  alone := by
    intro p hp hl hne c hc
    rw [hadded p hp hl] at hne
    exact (hlost c (lt_of_mem_children hc).2).2 (h.alone hp (mt (hlost p hp).2 hl) hne c hc)
  fresh := by
    intro p n hp hl hn
    rw [hadded p hp hl] at hn
    exact h.fresh hp (mt (hlost p hp).2 hl) hn

theorem Cut.lost_of_mem_descendants (h : t.Cut u lost added) {p n : Nat} (hp : lost p)
    (hn : n ∈ t.descendants p) : lost n := by
  induction p using induction_children (t := t) with
  | step p ih =>
    rw [descendants_eq, List.mem_flatMap] at hn
    obtain ⟨c, hc, hn⟩ := hn
    rcases List.mem_cons.1 hn with rfl | hn
    · exact h.below hp hc
    · exact ih c hc (h.below hp hc) hn

/-- What is left below a node stands in the old order, and each new node behind the node that
holds it. -/
theorem Cut.descendants (h : t.Cut u lost added) {p : Nat} (hp : p < t.size) (hl : ¬ lost p) :
    u.descendants p =
      added p ++ ((t.descendants p).filter (¬ lost ·)).flatMap fun n => n :: added n := by
  induction p using induction_children (t := t) with
  | step p ih =>
    have hrow : ∀ cs ⊆ t.children p,
        (cs.filter (¬ lost ·)).flatMap (fun c => c :: u.descendants c) =
          ((cs.flatMap fun c => c :: t.descendants c).filter (¬ lost ·)).flatMap
            fun n => n :: added n := by
      intro cs
      induction cs with
      | nil => exact fun _ => rfl
      | cons c cs ihc =>
        intro hsub
        obtain ⟨hc, hcs⟩ := List.cons_subset.1 hsub
        rw [List.flatMap_cons, List.filter_append, List.flatMap_append, ← ihc hcs]
        by_cases hlc : lost c
        · -- all below a lost child is lost with it
          have hnil : (c :: t.descendants c).filter (¬ lost ·) = [] := by
            rw [List.filter_eq_nil_iff]
            intro n hn
            rcases List.mem_cons.1 hn with rfl | hn
            · simpa using hlc
            · simpa using h.lost_of_mem_descendants hlc hn
          rw [hnil, List.filter_cons_of_neg (by simpa using hlc)]
          rfl
        · rw [List.filter_cons_of_pos (by simpa using hlc), List.flatMap_cons,
            ih c hc (lt_of_mem_children hc).2 hlc, List.filter_cons_of_pos (by simpa using hlc),
            List.flatMap_cons]
          rfl
    have hadded : (added p).flatMap (fun c => c :: u.descendants c) = added p := by
      have hleaf : ∀ n ∈ added p, u.descendants n = [] := by
        intro n hn
        rw [descendants_eq, (h.fresh hp hl hn).2]
        rfl
      rw [List.flatMap_congr fun n hn => by rw [hleaf n hn], List.flatMap_singleton']
    have hall := hrow _ (List.Subset.refl _)
    rw [← descendants_eq] at hall
    rw [descendants_eq, h.children hp hl, List.flatMap_append, hadded, ← hall]
    by_cases hne : added p = []
    · rw [hne, List.append_nil, List.nil_append]
    · -- a node with new children holds nothing else
      have hnil : (t.children p).filter (¬ lost ·) = [] := by
        rw [List.filter_eq_nil_iff]
        intro c hc
        simpa using h.alone hp hl hne c hc
      rw [hnil]
      exact (List.append_nil _).symm

/-- Among the old nodes, those that are not lost are below a node that they were below. -/
theorem Cut.mem_descendants_iff (h : t.Cut u lost added) {p n : Nat} (hp : p < t.size)
    (hl : ¬ lost p) (hn : n < t.size) :
    n ∈ u.descendants p ↔ n ∈ t.descendants p ∧ ¬ lost n := by
  have hold : ∀ {q}, q < t.size → ¬ lost q → n ∉ added q := fun hq hlq hnq =>
    Nat.not_le.2 hn (h.fresh hq hlq hnq).1
  rw [h.descendants hp hl, List.mem_append, List.mem_flatMap]
  constructor
  · rintro (hnp | ⟨m, hm, hnm⟩)
    · exact absurd hnp (hold hp hl)
    · obtain ⟨hmp, hlm⟩ := List.mem_filter.1 hm
      have hlm : ¬ lost m := by simpa using hlm
      rcases List.mem_cons.1 hnm with rfl | hnm
      · exact ⟨hmp, hlm⟩
      · exact absurd hnm (hold (lt_of_mem_descendants hmp).2 hlm)
  · rintro ⟨hnp, hln⟩
    exact .inr ⟨n, List.mem_filter.2 ⟨hnp, by simpa using hln⟩, List.mem_cons_self⟩

/-- Two edits are one, if the second adds nothing to what the first has added. -/
theorem Cut.trans (h : t.Cut u lost added) (h' : u.Cut v lost' added') (hsize : t.size ≤ u.size)
    (hnew : ∀ {p n}, p < t.size → ¬ lost p → n ∈ added p → n < u.size ∧ added' n = []) :
    t.Cut v (fun n => lost n ∨ lost' n) fun p => (added p).filter (¬ lost' ·) ++ added' p where
  below := by
    intro p c hp hc
    by_cases hlc : lost c
    · exact .inl hlc
    by_cases hlp : lost p
    · exact .inl (h.below hlp hc)
    -- the child is still there for the second edit
    · have hcu : c ∈ u.children p := by
        have hpt : p < t.size := Nat.lt_trans (lt_of_mem_children hc).1 (lt_of_mem_children hc).2
        rw [h.children hpt hlp]
        exact List.mem_append_left _ (List.mem_filter.2 ⟨hc, by simpa using hlc⟩)
      exact .inr (h'.below (hp.resolve_left hlp) hcu)
  children := by
    intro p hp hl
    obtain ⟨hlp, hlp'⟩ := not_or.1 hl
    rw [h'.children (Nat.lt_of_lt_of_le hp hsize) hlp', h.children hp hlp, List.filter_append,
      List.filter_filter, List.append_assoc]
    refine congrArg (· ++ _) (List.filter_congr fun c _ => ?_)
    simp only [not_or, Bool.decide_and, Bool.and_comm]
  alone := by
    intro p hp hl hne c hc
    obtain ⟨hlp, hlp'⟩ := not_or.1 hl
    by_cases hlc : lost c
    · exact .inl hlc
    · have hcu : c ∈ u.children p := by
        rw [h.children hp hlp]
        exact List.mem_append_left _ (List.mem_filter.2 ⟨hc, by simpa using hlc⟩)
      by_cases hadded : added p = []
      · rw [hadded] at hne
        exact .inr (h'.alone (Nat.lt_of_lt_of_le hp hsize) hlp' hne c hcu)
      · exact absurd (h.alone hp hlp hadded c hc) hlc
  fresh := by
    intro p n hp hl hn
    obtain ⟨hlp, hlp'⟩ := not_or.1 hl
    rcases List.mem_append.1 hn with hn | hn
    · obtain ⟨hn, hln⟩ := List.mem_filter.1 hn
      obtain ⟨hle, hnil⟩ := h.fresh hp hlp hn
      obtain ⟨hlt, hnone⟩ := hnew hp hlp hn
      refine ⟨hle, ?_⟩
      rw [h'.children hlt (by simpa using hln), hnil, hnone]
      rfl
    · obtain ⟨hle, hnil⟩ := h'.fresh (Nat.lt_of_lt_of_le hp hsize) hlp' hn
      exact ⟨Nat.le_trans hsize hle, hnil⟩

/-! ## The two edits of links -/

/-- What holds a node below another is at or below that. -/
theorem Linked.mem_of_mem_children (h : t.Linked) {id p c : Nat} (hc : c ∈ t.children p)
    (hid : c ∈ t.descendants id) : p = id ∨ p ∈ t.descendants id := by
  obtain ⟨q, hq, hcq⟩ := h.parent_of_mem_descendants hid
  obtain rfl : p = q := Option.some.inj ((h.mem_children_iff.1 hc).symm.trans hcq)
  exact hq

/-- Unlinking a node takes away the node and what is below it. -/
theorem Linked.cut_detach (h : t.Linked) {id q : Nat} (hid : t.parent id = some q) :
    t.Cut (t.detach id).1 (· ∈ id :: t.descendants id) fun _ => [] where
  below := by
    intro p c hp hc
    exact List.mem_cons_of_mem _ (Tree.mem_descendants_iff.2 ⟨p, List.mem_cons.1 hp, hc⟩)
  children := by
    intro p _ hl
    have hchild : ∀ c ∈ t.children p, (c ∈ id :: t.descendants id ↔ c = id) := by
      intro c hc
      refine ⟨fun hm => ?_, fun he => he ▸ List.mem_cons_self⟩
      rcases List.mem_cons.1 hm with rfl | hm
      · rfl
      · exact absurd (List.mem_cons.2 (h.mem_of_mem_children hc hm)) hl
    rw [children_detach hid, List.append_nil]
    split
    · exact List.filter_congr fun c hc => by simp only [hchild c hc]
    · rename_i hpq
      refine (List.filter_eq_self.2 fun c hc => ?_).symm
      have hne : c ≠ id := by
        rintro rfl
        exact hpq (Option.some.inj ((h.mem_children_iff.1 hc).symm.trans hid))
      simp only [hchild c hc, hne, not_false_iff, decide_true]
  alone _ _ hne := absurd rfl hne
  fresh _ _ hn := nomatch hn

theorem root_not_mem_descendants (t : Tree) (id : Nat) : Tree.root ∉ t.descendants id :=
  fun hm => Nat.not_lt_zero _ (lt_of_mem_descendants hm).1

/-- The root is no node of the page, and below none. -/
theorem root_not_mem_cons {id : Nat} (hid : id ∈ t.descendants Tree.root) :
    Tree.root ∉ id :: t.descendants id := by
  intro hm
  rcases List.mem_cons.1 hm with rfl | hm
  · exact t.root_not_mem_descendants _ hid
  · exact t.root_not_mem_descendants id hm

/-- What is left below a node stands in the old order. -/
theorem Linked.descendants_detach_of_not_mem (h : t.Linked) {id q n : Nat}
    (hid : t.parent id = some q) (hn : n < t.size) (hkept : n ∉ id :: t.descendants id) :
    (t.detach id).1.descendants n =
      (t.descendants n).filter (· ∉ id :: t.descendants id) := by
  rw [(h.cut_detach hid).descendants hn hkept, List.nil_append, List.flatMap_singleton']

/-- What is left on a page stands in the old order. -/
theorem Linked.descendants_detach (h : t.Linked) {id : Nat} (hid : id ∈ t.descendants Tree.root) :
    (t.detach id).1.descendants Tree.root =
      (t.descendants Tree.root).filter (· ∉ id :: t.descendants id) := by
  obtain ⟨q, -, hq⟩ := h.parent_of_mem_descendants hid
  have hpos : Tree.root < t.size :=
    Nat.lt_of_le_of_lt (Nat.zero_le id) (lt_of_mem_descendants hid).2
  exact h.descendants_detach_of_not_mem hq hpos (root_not_mem_cons hid)

/-- Replacing what a node holds by a text takes it away, and adds one node. -/
theorem Linked.cut_setText (h : t.Linked) {id : Nat} (hid : id < t.size) (body : String) :
    t.Cut (t.setText id body) (· ∈ t.descendants id) fun p => if p = id then [t.size] else [] where
  below := by
    intro p c hp hc
    exact Tree.mem_descendants_iff.2 ⟨p, .inr hp, hc⟩
  children := by
    intro p hp hl
    rw [children_setText hid]
    by_cases hpid : p = id
    · subst hpid
      have hnil : (t.children p).filter (¬ · ∈ t.descendants p) = [] := by
        rw [List.filter_eq_nil_iff]
        intro c hc
        simpa using mem_descendants_of_mem_children hc
      rw [if_pos rfl, if_pos rfl, hnil]
      rfl
    · rw [if_neg hpid, if_neg hpid, if_neg (Nat.ne_of_lt hp), List.append_nil]
      refine (List.filter_eq_self.2 fun c hc => ?_).symm
      have hout : c ∉ t.descendants id := fun hm => (h.mem_of_mem_children hc hm).elim hpid hl
      simpa using hout
  alone := by
    intro p _ _ hne c hc
    split at hne
    · rename_i hpid
      exact mem_descendants_of_mem_children (hpid ▸ hc)
    · exact absurd rfl hne
  fresh := by
    intro p n _ _ hn
    split at hn
    · obtain rfl := List.mem_singleton.1 hn
      refine ⟨Nat.le_refl _, ?_⟩
      rw [children_setText hid, if_neg (Nat.ne_of_gt hid), if_pos rfl]
    · cases hn

end

end PageMend.Markup.Tree
