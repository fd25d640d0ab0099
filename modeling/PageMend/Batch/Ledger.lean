/-!
# Ledgers

A ledger counts how often each name was recorded. It lists its names in ascending order, each
once, so that it depends on the counts alone and not on the order in which they were recorded.
`count_set` and `count_record` say what a change does to the counts.
-/

namespace PageMend

/-- Pairs in ascending order of their names. -/
def Ascending (counts : List (String × Nat)) : Prop := counts.Pairwise (·.1 < ·.1)

/-- The list with the count of a name changed, or added at its place. -/
def setCount (name : String) (n : Nat) : List (String × Nat) → List (String × Nat)
  | [] => [(name, n)]
  | (k, m) :: rest =>
    if name < k then (name, n) :: (k, m) :: rest
    else if name = k then (name, n) :: rest
    else (k, m) :: setCount name n rest

theorem mem_setCount {name : String} {n : Nat} {counts : List (String × Nat)} {p : String × Nat}
    (h : p ∈ setCount name n counts) : p = (name, n) ∨ p ∈ counts := by
  induction counts with
  | nil => simpa [setCount] using h
  | cons q rest ih =>
    obtain ⟨k, m⟩ := q
    simp only [setCount] at h
    split at h
    · simpa using h
    · split at h
      · rcases List.mem_cons.1 h with h | h
        · exact .inl h
        · exact .inr (List.mem_cons_of_mem _ h)
      · rcases List.mem_cons.1 h with h | h
        · exact .inr (h ▸ List.mem_cons_self)
        · exact (ih h).imp_right (List.mem_cons_of_mem _)

theorem lt_of_not_lt_of_ne {a b : String} (h : ¬ a < b) (hne : a ≠ b) : b < a := by
  by_cases hba : b < a
  · exact hba
  · exact absurd (String.le_antisymm (String.not_lt.1 hba) (String.not_lt.1 h)) hne

theorem Ascending.setCount {counts : List (String × Nat)} (h : Ascending counts) (name : String)
    (n : Nat) : Ascending (setCount name n counts) := by
  induction counts with
  | nil => exact List.pairwise_singleton _ _
  | cons q rest ih =>
    obtain ⟨k, m⟩ := q
    obtain ⟨hk, hrest⟩ := List.pairwise_cons.1 h
    simp only [PageMend.setCount]
    split
    · rename_i hlt
      refine List.pairwise_cons.2 ⟨fun p hp => ?_, h⟩
      rcases List.mem_cons.1 hp with rfl | hp
      · exact hlt
      · exact String.lt_trans hlt (hk p hp)
    · rename_i hlt
      split
      · rename_i heq
        exact List.pairwise_cons.2 ⟨fun p hp => heq ▸ hk p hp, hrest⟩
      · rename_i hne
        refine List.pairwise_cons.2 ⟨fun p hp => ?_, ih hrest⟩
        rcases mem_setCount hp with rfl | hp
        · exact lt_of_not_lt_of_ne hlt hne
        · exact hk p hp

/-- How often each name was recorded. -/
structure Ledger where
  counts : List (String × Nat)
  ascending : Ascending counts

namespace Ledger

def empty : Ledger := ⟨[], .nil⟩

instance : Inhabited Ledger := ⟨empty⟩

theorem ext {a b : Ledger} (h : a.counts = b.counts) : a = b := by
  cases a; cases b; cases h; rfl

instance : DecidableEq Ledger := fun a b =>
  if h : a.counts = b.counts then .isTrue (ext h) else .isFalse fun e => h (congrArg counts e)

/-- How often a name was recorded. -/
def count (l : Ledger) (name : String) : Nat := (l.counts.lookup name).getD 0

/-- Changes the count of a name. -/
def set (l : Ledger) (name : String) (n : Nat) : Ledger :=
  ⟨setCount name n l.counts, l.ascending.setCount name n⟩

/-- Counts a name once more. -/
def record (l : Ledger) (name : String) : Ledger := l.set name (l.count name + 1)

/-- A ledger from counts; of two counts of one name the last holds. -/
def ofList (counts : List (String × Nat)) : Ledger :=
  counts.foldl (fun l (name, n) => l.set name n) empty

/-- Whether no name was ever counted. -/
def isEmpty (l : Ledger) : Bool := l.counts.isEmpty

/-- The names with a count above zero, in ascending order. -/
def toList (l : Ledger) : List (String × Nat) := l.counts.filter fun (_, n) => 0 < n

/-! ### What a change does to the counts -/

theorem lookup_cons_eq (name k : String) (m : Nat) (rest : List (String × Nat)) :
    ((k, m) :: rest).lookup name = if name = k then some m else rest.lookup name := by
  rw [List.lookup_cons]
  by_cases h : name = k
  · simp [h]
  · have : (name == k) = false := beq_eq_false_iff_ne.2 h
    simp [this, h]

theorem lookup_setCount (name other : String) (n : Nat) (counts : List (String × Nat)) :
    (setCount name n counts).lookup other =
      if other = name then some n else counts.lookup other := by
  induction counts with
  | nil => simp [setCount, lookup_cons_eq]
  | cons q rest ih =>
    obtain ⟨k, m⟩ := q
    simp only [setCount]
    split
    · rw [lookup_cons_eq]
    · split
      · rename_i heq
        subst heq
        by_cases h : other = name <;> simp [lookup_cons_eq, h]
      · rename_i hne
        by_cases hk : other = k
        · subst hk
          simp [Ne.symm hne]
        · simp [lookup_cons_eq, hk, ih]

@[simp] theorem count_set (l : Ledger) (name other : String) (n : Nat) :
    (l.set name n).count other = if other = name then n else l.count other := by
  simp only [count, set, lookup_setCount]
  split <;> rfl

@[simp] theorem count_record (l : Ledger) (name other : String) :
    (l.record name).count other = l.count other + if other = name then 1 else 0 := by
  by_cases h : other = name <;> simp [record, h]

end Ledger

end PageMend
