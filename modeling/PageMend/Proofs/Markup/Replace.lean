import PageMend.Proofs.Markup.Lookup

/-!
# Replacing text below a node

To replace a pattern below a node changes the texts at and below it in which the pattern stands,
each as `Text.Replaced` says, and nothing else (`replaceText_of_edits`). The answer tells whether a
text was changed, if the pattern is not replaced by itself: it is found by a search for the pattern,
and each text that holds the pattern is changed by the replacement (`Tree.Linked.replaceText_iff`).
-/

namespace PageMend.Markup

namespace Tree

variable {t : Tree} {id n : Nat} {pattern replacement body : String}

theorem kind_of_text? (h : t.text? n = some body) : t.kind n = .text body := by
  rw [text?] at h
  cases hk : t.kind n <;> rw [hk] at h <;> cases h
  rfl

/-- What is hit are the texts at and below the node in which the pattern stands. -/
theorem mem_hits : n ∈ t.hits pattern id ↔
    n ∈ id :: t.descendants id ∧ ∃ body, t.text? n = some body ∧ body.hasInfix pattern = true := by
  rw [hits, List.mem_filter, Option.any_eq_true]

section
variable (h : t.Linked)
include h

/-- Nothing but texts at and below the node is changed. -/
theorem Linked.kind_replaceText_of_outside
    (hn : n ∉ id :: t.descendants id ∨ t.text? n = none) :
    (t.replaceText id pattern replacement).1.kind n = t.kind n := by
  rw [h.kind_replaceText]
  split
  · rename_i hmem
    have hnone : t.text? n = none := hn.resolve_left fun hnot => hnot hmem
    refine Kind.replaceEach_of_not_hasInfix replacement ?_
    rw [show (t.kind n).text? = none from hnone]
    rfl
  · rfl

theorem Linked.kind_replaceText_of_text (hmem : n ∈ id :: t.descendants id)
    (hbody : t.text? n = some body) :
    (t.replaceText id pattern replacement).1.kind n =
      .text (body.replaceEach pattern replacement) := by
  rw [h.kind_replaceText, if_pos hmem, kind_of_text? hbody]
  rfl

/-- The answer of a replacement tells whether a text has become another one. -/
theorem Linked.replaceText_iff (id : Nat) (hother : pattern ≠ replacement) :
    (t.replaceText id pattern replacement).2 = true ↔ ∃ n body, t.text? n = some body ∧
      (t.replaceText id pattern replacement).1.text? n ≠ some body := by
  by_cases hne : pattern = ""
  · rw [Tree.replaceText, if_pos hne]
    constructor
    · intro htrue
      cases htrue
    · rintro ⟨n, body, hbody, hchanged⟩
      exact absurd hbody hchanged
  have hanswer : (t.replaceText id pattern replacement).2 = true ↔ ∃ n, n ∈ t.hits pattern id := by
    rw [replaceText_eq t replacement hne, Bool.not_eq_true', List.isEmpty_eq_false_iff_exists_mem]
  rw [hanswer]
  constructor
  · rintro ⟨n, hhit⟩
    obtain ⟨hmem, body, hbody, hinfix⟩ := mem_hits.1 hhit
    refine ⟨n, body, hbody, fun hsame => ?_⟩
    rw [text?, h.kind_replaceText_of_text hmem hbody] at hsame
    exact String.replaceEach_ne_self hne hother hinfix (Option.some.inj hsame)
  · rintro ⟨n, body, hbody, hchanged⟩
    have hmem : n ∈ id :: t.descendants id := by
      by_contra hmem
      exact hchanged ((congrArg Kind.text? (h.kind_replaceText_of_outside (.inl hmem))).trans hbody)
    refine ⟨n, mem_hits.2 ⟨hmem, body, hbody, ?_⟩⟩
    by_contra hinfix
    rw [text?, h.kind_replaceText_of_text hmem hbody,
      String.replaceEach_of_not_hasInfix replacement (Bool.eq_false_iff.2 hinfix)] at hchanged
    exact hchanged rfl

/-- A node is at or below another just when steps from parent to child lead to it. -/
theorem Linked.mem_cons_descendants_iff :
    n ∈ id :: t.descendants id ↔ Relation.ReflTransGen (fun p c => t.parent c = some p) id n := by
  have hlinks : (fun p c => c ∈ t.children p) = fun p c => t.parent c = some p :=
    funext fun p => funext fun c => propext h.mem_children_iff
  rw [List.mem_cons, mem_descendants_iff_transGen, hlinks, Relation.reflTransGen_iff_eq_or_transGen]

end

end Tree

/-- In a tree that came about by edits, replacing a pattern by another text changes the texts at and
below a node, each as its occurrences from left to right say, and nothing else; and the answer tells
whether one of them has become another. The empty pattern changes nothing. -/
theorem replaceText_of_edits {edits : List Edit} {t : Tree}
    (h : Edit.runAll? .empty edits = some t) {id : Nat} {pattern replacement : String}
    (hid : pattern = "" ∨ id < t.size) (hother : pattern ≠ replacement) :
    ∃ u any, Edit.run? t (.replaceText id pattern replacement) = some (u, .changed any) ∧
      (any = true ↔ ∃ n body, t.text? n = some body ∧ u.text? n ≠ some body) ∧
      u.size = t.size ∧ (∀ n, u.parent n = t.parent n ∧ u.children n = t.children n) ∧
      (∀ n, ¬Relation.ReflTransGen (fun p c => t.parent c = some p) id n ∨ t.text? n = none →
        u.kind n = t.kind n) ∧
      (pattern ≠ "" → ∀ n body, Relation.ReflTransGen (fun p c => t.parent c = some p) id n →
        t.text? n = some body → ∀ out, u.kind n = .text out ↔
          Text.Replaced pattern.toList replacement.toList body.toList out.toList) ∧
      (pattern = "" → u = t ∧ any = false) := by
  obtain ⟨hlinked, -⟩ := Tree.linked_empty.runAll? h
  have hrun : Edit.run? t (.replaceText id pattern replacement) =
      some ((t.replaceText id pattern replacement).1,
        .changed (t.replaceText id pattern replacement).2) :=
    if_pos (hid.imp_right decide_eq_true)
  refine ⟨_, _, hrun, hlinked.replaceText_iff id hother, by simp, by simp, fun n hn => ?_,
    fun hne n body hmem hbody out => ?_, fun hempty => ?_⟩
  · rw [← hlinked.mem_cons_descendants_iff] at hn
    exact hlinked.kind_replaceText_of_outside hn
  · rw [hlinked.kind_replaceText_of_text (hlinked.mem_cons_descendants_iff.2 hmem) hbody,
      Kind.text.injEq, String.replaceEach_eq_iff replacement hne]
  · rw [Tree.replaceText, if_pos hempty]
    exact ⟨rfl, rfl⟩

/-- The first two of three letters are replaced in the text below an element, and nothing in the
text behind it. -/
theorem replaceText_of_three_edits :
    ∃ t u, Edit.runAll? .empty
        [.append 0 (.element ⟨"p", "", [], false⟩), .append 1 (.text "aaa"),
          .append 0 (.text "aa")] = some t ∧
      Edit.run? t (.replaceText 1 "aa" "b") = some (u, .changed true) ∧
      u.kind 2 = .text "ba" ∧ u.kind 3 = .text "aa" := by
  have hw : (Edit.runAll? .empty
      [.append 0 (.element ⟨"p", "", [], false⟩), .append 1 (.text "aaa"),
        .append 0 (.text "aa")]).map
          (fun t => (t.size, t.parent 2, t.kind 2, t.parent 3, t.kind 3)) =
      some (4, some 1, .text "aaa", some 0, .text "aa") := by
    decide
  obtain ⟨t, ht, hfacts⟩ := Option.map_eq_some_iff.1 hw
  simp only [Prod.mk.injEq] at hfacts
  obtain ⟨hsize, hparent, hkind, hparent', hkind'⟩ := hfacts
  have htext : t.text? 2 = some "aaa" := by rw [Tree.text?, hkind]; rfl
  have hid : "aa" = "" ∨ 1 < t.size := .inr (by rw [hsize]; decide)
  obtain ⟨u, any, hrun, hany, -, -, hother, htexts, -⟩ :=
    replaceText_of_edits ht hid (show "aa" ≠ "b" by decide)
  -- of the three letters the first two are an occurrence, and the third is none
  have hreplaced : Text.Replaced "aa".toList "b".toList "aaa".toList "ba".toList :=
    .next [] (by decide) (.none (by decide))
  have hnew : u.kind 2 = .text "ba" :=
    (htexts (by decide) 2 "aaa" (.single hparent) htext "ba").2 hreplaced
  obtain rfl : any = true := hany.2 ⟨2, "aaa", htext, by rw [Tree.text?, hnew]; decide⟩
  refine ⟨t, u, ht, hrun, hnew, (hother 3 (.inl fun hbelow => ?_)).trans hkind'⟩
  -- the way up from the text behind the element leads to the root
  obtain he | ⟨p, hway, hp⟩ := hbelow.cases_tail
  · cases he
  · obtain rfl : 0 = p := Option.some.inj (hparent'.symm.trans hp)
    obtain he | ⟨q, -, hq⟩ := hway.cases_tail
    · cases he
    · exact absurd (Tree.parent_lt hq) (Nat.not_lt_zero q)

end PageMend.Markup
