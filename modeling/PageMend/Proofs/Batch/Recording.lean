import Mathlib.Data.List.Induction
import PageMend.Proofs.Batch.Ledger
import PageMend.Proofs.Report.RoundTrip
import PageMend.Proofs.Text.Bytes

/-!
# Recording in a ledger

A ledger is told by what a look-up finds in it (`Ledger.eq_of_lookup_eq`), since its entries are
strictly in order. What is found after some names were recorded depends on how often each was
recorded and on nothing else (`Ledger.lookup_recordAll`), so the records may come in any order. An
entry of zero can only come from a text: where each entry was recorded, the counts alone tell the
ledger (`Ledger.eq_of_count_eq`).

Counts take 64 bits. `Ledger.recordAll?` records as long as they do, and there is room for all names
just when the sums of counts and records fit (`Ledger.recordAll?_eq_some_iff`).
-/

namespace PageMend

namespace Ledger

/-! ## A ledger is told by its look-ups -/

section
variable {l m : Ledger} {name : String} {n : Nat}

theorem mem_counts_iff : (name, n) ∈ l.counts ↔ l.counts.lookup name = some n := by
  constructor
  · exact l.ascending.lookup_of_mem
  · intro h
    obtain ⟨front, back, hsplit, -⟩ := List.lookup_eq_some_iff.1 h
    rw [hsplit]
    exact List.mem_append_right front List.mem_cons_self

theorem nodup_counts (l : Ledger) : l.counts.Nodup := by
  refine l.ascending.imp fun {a b} hlt he => ?_
  exact String.lt_irrefl a.1 (he ▸ hlt)

/-- Two ledgers in which the same is found are the same. -/
theorem eq_of_lookup_eq (h : ∀ name, l.counts.lookup name = m.counts.lookup name) : l = m := by
  apply ext
  have hperm : l.counts.Perm m.counts := by
    apply (List.perm_ext_iff_of_nodup l.nodup_counts m.nodup_counts).2
    rintro ⟨name, n⟩
    rw [mem_counts_iff, mem_counts_iff, h]
  apply hperm.eq_of_pairwise _ l.ascending m.ascending
  intro a b _ _ hab hba
  exact absurd (String.lt_trans hab hba) (String.lt_irrefl a.1)

/-! ## What is found after records -/

/-- Each name that was recorded has an entry, and the others have the entry that they had. -/
theorem lookup_recordAll (l : Ledger) (names : List String) (name : String) :
    (l.recordAll names).counts.lookup name =
      if name ∈ names then some (l.count name + names.count name) else l.counts.lookup name := by
  induction names generalizing l with
  | nil => rfl
  | cons other names ih =>
    show ((l.record other).recordAll names).counts.lookup name = _
    rw [ih, count_record, record, set, lookup_setCount]
    by_cases hother : name = other
    · subst hother
      by_cases hmem : name ∈ names
      · rw [if_pos hmem, if_pos rfl, if_pos List.mem_cons_self, List.count_cons_self,
          Nat.add_right_comm, Nat.add_assoc]
      · simp [hmem, List.count_eq_zero_of_not_mem hmem]
    · by_cases hmem : name ∈ names
      · simp [hmem, hother, Ne.symm hother]
      · simp [hmem, hother]

/-- The order of the records does not matter. -/
theorem recordAll_perm (l : Ledger) {names others : List String} (h : others.Perm names) :
    l.recordAll others = l.recordAll names := by
  apply eq_of_lookup_eq
  intro name
  rw [lookup_recordAll, lookup_recordAll, h.count_eq name]
  simp only [h.mem_iff]

/-! ## What is listed -/

theorem mem_toList_iff : (name, n) ∈ l.toList ↔ l.count name = n ∧ 0 < n := by
  rw [toList, List.mem_filter, mem_counts_iff, count, decide_eq_true_iff]
  constructor
  · rintro ⟨hlookup, hpos⟩
    rw [hlookup]
    exact ⟨rfl, hpos⟩
  · rintro ⟨hcount, hpos⟩
    refine ⟨?_, hpos⟩
    cases hlookup : l.counts.lookup name with
    | none =>
      rw [hlookup] at hcount
      exact absurd hcount (Nat.ne_of_lt hpos)
    | some k =>
      rw [hlookup] at hcount
      exact congrArg some hcount

/-- The names are listed in the order of their bytes. -/
theorem pairwise_bytes_toList (l : Ledger) :
    l.toList.Pairwise fun a b => Text.bytes a.1 < Text.bytes b.1 :=
  (l.ascending.sublist List.filter_sublist).imp Text.bytes_lt_iff.2

end

/-! ## Ledgers without an entry of zero -/

section
variable {l m : Ledger}

/-- Without an entry of zero, a look-up finds what the count tells. -/
theorem lookup_eq_of_pos (h : ∀ p ∈ l.counts, 0 < p.2) (name : String) :
    l.counts.lookup name = if l.count name = 0 then none else some (l.count name) := by
  rw [count]
  cases hlookup : l.counts.lookup name with
  | none => rfl
  | some n =>
    have hpos : 0 < n := h (name, n) (mem_counts_iff.2 hlookup)
    exact (if_neg (Nat.ne_of_gt hpos)).symm

theorem eq_of_count_eq (hl : ∀ p ∈ l.counts, 0 < p.2) (hm : ∀ p ∈ m.counts, 0 < p.2)
    (h : ∀ name, l.count name = m.count name) : l = m := by
  apply eq_of_lookup_eq
  intro name
  rw [lookup_eq_of_pos hl, lookup_eq_of_pos hm, h]

/-- Without an entry of zero, each entry is listed. -/
theorem toList_eq_of_pos (h : ∀ p ∈ l.counts, 0 < p.2) : l.toList = l.counts :=
  List.filter_eq_self.2 fun p hp => decide_eq_true (h p hp)

end

/-! ## Counts of 64 bits -/

/-- Counts a name once more, if its count then takes no more than 64 bits. -/
def record? (l : Ledger) (name : String) : Option Ledger :=
  if l.count name + 1 < 2 ^ 64 then some (l.record name) else none

/-- Counts names one behind the other, as long as no count takes more than 64 bits. -/
def recordAll? (l : Ledger) (names : List String) : Option Ledger := names.foldlM record? l

/-- There is room for all records just when the counts have room for them in the end. -/
theorem recordAll?_eq_some_iff {l m : Ledger} {names : List String} :
    l.recordAll? names = some m ↔
      m = l.recordAll names ∧ ∀ name ∈ names, l.count name + names.count name < 2 ^ 64 := by
  induction names generalizing l with
  | nil => simp [recordAll?, recordAll, eq_comm]
  | cons first names ih =>
    have hcons : l.recordAll? (first :: names) = (l.record? first).bind (·.recordAll? names) := rfl
    have hcount : ∀ name, (l.record first).count name + names.count name =
        l.count name + (first :: names).count name := by
      intro name
      rw [← count_recordAll, ← count_recordAll]
      rfl
    rw [hcons, record?]
    split
    · rename_i hroom
      rw [Option.bind_some, ih]
      refine and_congr_right fun _ => ⟨fun h name hname => ?_, fun h name hname => ?_⟩
      · by_cases hmem : name ∈ names
        · rw [← hcount]
          exact h name hmem
        · -- the first name is recorded once and has room
          obtain rfl : name = first := (List.mem_cons.1 hname).resolve_right hmem
          rw [List.count_cons_self, List.count_eq_zero_of_not_mem hmem]
          exact hroom
      · rw [hcount]
        exact h name (List.mem_cons_of_mem first hname)
    · rename_i hfull
      refine iff_of_false (fun h => by cases h) fun h => hfull ?_
      have hfirst := h.2 first List.mem_cons_self
      rw [List.count_cons_self] at hfirst
      omega

/-- A ledger that has grown by records: the checked records are the unchecked ones, in any order,
and add up; what is listed are the counts above zero, in the order of the bytes of their names. -/
structure GrownBy (l : Ledger) (names : List String) (m : Ledger) : Prop where
  eq_recordAll : m = l.recordAll names
  count : ∀ name, m.count name = l.count name + names.count name
  any_order : ∀ others, others.Perm names → l.recordAll? others = some m
  listed : ∀ name n, (name, n) ∈ m.toList ↔ m.count name = n ∧ 0 < n
  ascending : m.toList.Pairwise fun a b => Text.bytes a.1 < Text.bytes b.1

theorem grownBy_of_recordAll? {l m : Ledger} {names : List String}
    (h : l.recordAll? names = some m) : l.GrownBy names m := by
  obtain ⟨rfl, hroom⟩ := recordAll?_eq_some_iff.1 h
  refine ⟨rfl, l.count_recordAll names, fun others hperm => ?_, fun _ _ => mem_toList_iff,
    pairwise_bytes_toList _⟩
  refine recordAll?_eq_some_iff.2 ⟨(l.recordAll_perm hperm).symm, fun name hname => ?_⟩
  rw [hperm.count_eq]
  exact hroom name (hperm.mem_iff.1 hname)

/-! ## Ledgers from texts -/

/-- The object with those counts. -/
def objectOf (counts : List (String × UInt64)) : Json :=
  .object (counts.map fun entry => (entry.1, .ofNat entry.2.toNat))

/-- The count of a name in an object. Of two members of one name the last holds. -/
def lastCount (counts : List (String × UInt64)) (name : String) : Nat :=
  ((counts.reverse.lookup name).map UInt64.toNat).getD 0

theorem ofList_concat (counts : List (String × Nat)) (entry : String × Nat) :
    ofList (counts ++ [entry]) = (ofList counts).set entry.1 entry.2 := by
  rw [ofList, List.foldl_append]
  rfl

theorem count_ofList (counts : List (String × UInt64)) (name : String) :
    (ofList (counts.map fun entry => (entry.1, entry.2.toNat))).count name =
      lastCount counts name := by
  induction counts using List.reverseRecOn with
  | nil => rfl
  | append_singleton counts entry ih =>
    rw [List.map_append, List.map_singleton, ofList_concat, count_set, ih, lastCount, lastCount,
      List.reverse_append, List.reverse_singleton, List.singleton_append, List.lookup_cons]
    by_cases h : name = entry.1
    · simp [h]
    · have hne : (name == entry.1) = false := beq_eq_false_iff_ne.2 h
      simp [h, hne]

theorem ofJson?_objectOf (counts : List (String × UInt64)) :
    Ledger.ofJson? (objectOf counts) =
      some (ofList (counts.map fun entry => (entry.1, entry.2.toNat))) := by
  have hentry : ∀ entry ∈ counts.map fun entry => (entry.1, entry.2.toNat),
      ((Json.ofNat entry.2).count?.map fun n => (entry.1, n)) = some entry := by
    intro entry hentry
    obtain ⟨word, -, rfl⟩ := List.mem_map.1 hentry
    simp only [Json.count?_ofNat word.2.toNat_lt, Option.map_some]
  have hread := mapM_of_forall (fun entry : String × Nat => (entry.1, Json.ofNat entry.2))
    (fun member : String × Json => member.2.count?.map (member.1, ·)) hentry
  rw [List.map_map] at hread
  simp only [Ledger.ofJson?, objectOf, Json.object?, Option.bind_eq_bind, Option.bind_some]
  exact congrArg (Option.bind · _) hread

/-- From the text of an object of counts that take 64 bits a ledger is read which has these counts.
As long as the counts of a ledger have room, each name is counted as often as it was recorded,
whatever the order of the records was; the names with a count above zero are listed in the order of
their bytes. Ledgers that have grown from the empty one are told by their counts, and are empty just
when they list nothing. -/
theorem grownBy_of_records :
    (∀ (text : String) (counts : List (String × UInt64)), Json.IsText text (objectOf counts) →
      ∃ l, (Json.read? text).bind Ledger.ofJson? = some l ∧
        ∀ name, l.count name = lastCount counts name) ∧
    (∀ (l : Ledger) (names : List String),
      ((∃ m, l.recordAll? names = some m) ↔
        ∀ name ∈ names, l.count name + names.count name < 2 ^ 64) ∧
      ∀ m, l.recordAll? names = some m → l.GrownBy names m) ∧
    ∀ (names others : List String) (m m' : Ledger),
      empty.recordAll? names = some m → empty.recordAll? others = some m' →
        (m.isEmpty = true ↔ m.toList = []) ∧ (m = m' ↔ ∀ name, m.count name = m'.count name) := by
  refine ⟨fun text counts htext => ?read, fun l names => ⟨?room, fun m => grownBy_of_recordAll?⟩,
    fun names others m m' hm hm' => ?grown⟩
  case read =>
    refine ⟨_, ?_, count_ofList counts⟩
    rw [Json.read?_of_isText htext, Option.bind_some, ofJson?_objectOf]
  case room =>
    constructor
    · rintro ⟨m, hm⟩
      exact (recordAll?_eq_some_iff.1 hm).2
    · intro hroom
      exact ⟨_, recordAll?_eq_some_iff.2 ⟨rfl, hroom⟩⟩
  case grown =>
    have hpos : ∀ names, ∀ p ∈ (empty.recordAll names).counts, 0 < p.2 :=
      empty.pos_recordAll (List.forall_mem_nil _)
    obtain ⟨rfl, -⟩ := recordAll?_eq_some_iff.1 hm
    obtain ⟨rfl, -⟩ := recordAll?_eq_some_iff.1 hm'
    constructor
    · rw [toList_eq_of_pos (hpos names), isEmpty, List.isEmpty_iff]
    · exact ⟨fun h name => congrArg (·.count name) h, eq_of_count_eq (hpos names) (hpos others)⟩

/-- A ledger is read from a text, and two names are recorded, one of them twice. -/
theorem grownBy_of_three_records :
    ∃ l m, (Json.read? (objectOf [("a", 2)]).pretty).bind Ledger.ofJson? = some l ∧
      l.recordAll? ["b", "a", "b"] = some m ∧ l.recordAll? ["b", "b", "a"] = some m ∧
      m.count "a" = 3 ∧ m.count "b" = 2 ∧ ("b", 2) ∈ m.toList := by
  obtain ⟨hread, hgrow, -⟩ := grownBy_of_records
  have hproper : Json.Proper (objectOf [("a", 2)]) :=
    .object (List.forall_mem_singleton.2 (Json.proper_ofNat 2))
  obtain ⟨l, hl, hcount⟩ := hread _ _ (Json.isText_pretty hproper)
  have ha : l.count "a" = 2 := hcount "a"
  have hb : l.count "b" = 0 := hcount "b"
  have hroom : ∀ name ∈ ["b", "a", "b"], l.count name + ["b", "a", "b"].count name < 2 ^ 64 := by
    simp [ha, hb]
  obtain ⟨m, hm⟩ := (hgrow l _).1.2 hroom
  have hgrown := (hgrow l _).2 m hm
  have hthree : m.count "a" = 3 := by rw [hgrown.count, ha]; rfl
  have htwo : m.count "b" = 2 := by rw [hgrown.count, hb]; rfl
  exact ⟨l, m, hl, hm, hgrown.any_order _ (by decide), hthree, htwo,
    (hgrown.listed "b" 2).2 ⟨htwo, by decide⟩⟩

/-- A ledger with an entry of zero is not empty, and lists nothing. -/
example : (empty.set "a" 0).isEmpty = false ∧ (empty.set "a" 0).toList = [] := by decide

end Ledger

end PageMend
