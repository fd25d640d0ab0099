import PageMend.Batch.Ledger

/-!
# What a ledger holds

A ledger has at most one entry for a name, so an entry is the count of its name
(`Ledger.count_of_mem`). Recording names one behind the other (`recordAll`) counts each name as
often as it was recorded, and adds the number of records to the sum of all counts; it makes no
entry of zero. A ledger is made again from its own counts (`Ledger.ofList_counts`).
-/

namespace PageMend

theorem lookup_eq_none_of_lt {name : String} {counts : List (String × Nat)}
    (h : ∀ p ∈ counts, name < p.1) : counts.lookup name = none := by
  rw [List.lookup_eq_none_iff]
  intro p hp
  exact bne_iff_ne.2 (String.ne_of_lt (h p hp))

theorem Ascending.lookup_of_mem {counts : List (String × Nat)} (h : Ascending counts)
    {name : String} {n : Nat} (hmem : (name, n) ∈ counts) : counts.lookup name = some n := by
  induction counts with
  | nil => cases hmem
  | cons q rest ih =>
    obtain ⟨k, m⟩ := q
    obtain ⟨hk, hrest⟩ := List.pairwise_cons.1 h
    rw [Ledger.lookup_cons_eq]
    rcases List.mem_cons.1 hmem with he | hmem
    · obtain ⟨rfl, rfl⟩ := Prod.mk.inj he
      rw [if_pos rfl]
    · rw [if_neg (String.ne_of_lt (hk _ hmem)).symm]
      exact ih hrest hmem

/-- The sum of counts. -/
def sumCounts (counts : List (String × Nat)) : Nat :=
  counts.foldr (fun entry n => entry.2 + n) 0

@[simp] theorem sumCounts_nil : sumCounts [] = 0 := rfl

@[simp] theorem sumCounts_cons (entry : String × Nat) (counts : List (String × Nat)) :
    sumCounts (entry :: counts) = entry.2 + sumCounts counts := rfl

/-- Changing a count changes the sum of all counts by as much. -/
theorem sumCounts_setCount {counts : List (String × Nat)} (h : Ascending counts) (name : String)
    (n : Nat) :
    sumCounts (setCount name n counts) + (counts.lookup name).getD 0 = sumCounts counts + n := by
  induction counts with
  | nil => simp [setCount]
  | cons q rest ih =>
    obtain ⟨k, m⟩ := q
    obtain ⟨hk, hrest⟩ := List.pairwise_cons.1 h
    simp only [setCount]
    split
    · rename_i hlt
      have hnone : ((k, m) :: rest).lookup name = none := by
        refine lookup_eq_none_of_lt fun p hp => ?_
        rcases List.mem_cons.1 hp with rfl | hp
        · exact hlt
        · exact String.lt_trans hlt (hk p hp)
      rw [hnone, sumCounts_cons, Option.getD_none]
      omega
    · rw [Ledger.lookup_cons_eq]
      split
      · rw [Option.getD_some, sumCounts_cons, sumCounts_cons]
        omega
      · have hsum := ih hrest
        rw [sumCounts_cons, sumCounts_cons]
        omega

namespace Ledger

/-- The sum of all counts. -/
def total (l : Ledger) : Nat := sumCounts l.counts

/-- Counts names, each once more. -/
def recordAll (l : Ledger) (names : List String) : Ledger := names.foldl record l

variable (l : Ledger)

theorem count_of_mem {name : String} {n : Nat} (h : (name, n) ∈ l.counts) : l.count name = n := by
  rw [count, l.ascending.lookup_of_mem h]
  rfl

theorem total_set (name : String) (n : Nat) :
    (l.set name n).total + l.count name = l.total + n := sumCounts_setCount l.ascending name n

theorem total_record (name : String) : (l.record name).total = l.total + 1 := by
  have hset := l.total_set name (l.count name + 1)
  rw [record]
  omega

theorem recordAll_append (names others : List String) :
    l.recordAll (names ++ others) = (l.recordAll names).recordAll others := List.foldl_append

theorem count_recordAll (names : List String) (name : String) :
    (l.recordAll names).count name = l.count name + names.count name := by
  induction names generalizing l with
  | nil => rfl
  | cons other names ih =>
    show ((l.record other).recordAll names).count name = _
    rw [ih, count_record, List.count_cons]
    by_cases h : name = other
    · simp [h]
      omega
    · simp [h, Ne.symm h]

theorem total_recordAll (names : List String) :
    (l.recordAll names).total = l.total + names.length := by
  induction names generalizing l with
  | nil => rfl
  | cons name names ih =>
    show ((l.record name).recordAll names).total = _
    rw [ih, total_record, List.length_cons]
    omega

/-- Records make no entry of zero. -/
theorem pos_recordAll (h : ∀ p ∈ l.counts, 0 < p.2) (names : List String) :
    ∀ p ∈ (l.recordAll names).counts, 0 < p.2 := by
  induction names generalizing l with
  | nil => exact h
  | cons name names ih =>
    refine ih (l.record name) fun p hp => ?_
    rcases mem_setCount hp with rfl | hp
    · exact Nat.succ_pos _
    · exact h p hp

/-! ### A ledger from its own counts -/

/-- A name behind all others is added at the end. -/
theorem setCount_append {name : String} {counts : List (String × Nat)}
    (h : ∀ p ∈ counts, p.1 < name) (n : Nat) : setCount name n counts = counts ++ [(name, n)] := by
  induction counts with
  | nil => rfl
  | cons p rest ih =>
    obtain ⟨k, m⟩ := p
    obtain ⟨hk, hrest⟩ := List.forall_mem_cons.1 h
    have hlt : ¬name < k := fun hlt => String.lt_irrefl k (String.lt_trans hk hlt)
    rw [setCount, if_neg hlt, if_neg (String.ne_of_lt hk).symm, ih hrest]
    rfl

/-- Counts that come in order are taken over as they are. -/
theorem ofList_counts (l : Ledger) : ofList l.counts = l := by
  suffices h : ∀ (counts : List (String × Nat)) (front : Ledger),
      Ascending (front.counts ++ counts) →
      (counts.foldl (fun l entry => l.set entry.1 entry.2) front).counts =
        front.counts ++ counts from
    ext (h l.counts empty l.ascending)
  intro counts
  induction counts with
  | nil => exact fun front _ => (List.append_nil _).symm
  | cons p rest ih =>
    intro front h
    obtain ⟨name, n⟩ := p
    have hfront : (front.set name n).counts = front.counts ++ [(name, n)] :=
      setCount_append (fun p hp => (List.pairwise_append.1 h).2.2 p hp _ List.mem_cons_self) n
    rw [List.foldl_cons, ih _ (by rw [hfront, List.append_assoc]; exact h), hfront,
      List.append_assoc]
    rfl

end Ledger

end PageMend
