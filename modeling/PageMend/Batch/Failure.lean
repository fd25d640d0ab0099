/-!
# Failures

A page that cannot be mended does not stop a run; it is recorded as a failure of one of four
categories. `FailureCounts` counts them by category. A category without a count is not the same as
one that was counted zero times: only the latter is listed.
-/

namespace PageMend

/-- The classes of failures, in the order in which they are listed. -/
inductive Category where
  | malformedMarkup | encoding | io | write
  deriving DecidableEq, Repr

namespace Category

def label : Category → String
  | .malformedMarkup => "malformed-markup"
  | .encoding => "encoding"
  | .io => "io"
  | .write => "write"

def all : List Category := [.malformedMarkup, .encoding, .io, .write]

/-- The category with that label. -/
def labelled? (label : String) : Option Category := all.find? (·.label = label)

@[simp] theorem labelled?_label (c : Category) : labelled? c.label = some c := by
  cases c <;> decide

@[simp] theorem mem_all (c : Category) : c ∈ all := by cases c <;> decide

end Category

/-- A page that could not be mended. -/
structure Failure where
  path : String
  category : Category
  message : String
  deriving DecidableEq, Repr

/-- How often each category was counted, if at all. -/
structure FailureCounts where
  malformedMarkup : Option Nat := none
  encoding : Option Nat := none
  io : Option Nat := none
  write : Option Nat := none
  deriving DecidableEq, Repr

namespace FailureCounts

def get? (counts : FailureCounts) : Category → Option Nat
  | .malformedMarkup => counts.malformedMarkup
  | .encoding => counts.encoding
  | .io => counts.io
  | .write => counts.write

def set (counts : FailureCounts) (c : Category) (n : Nat) : FailureCounts :=
  match c with
  | .malformedMarkup => { counts with malformedMarkup := some n }
  | .encoding => { counts with encoding := some n }
  | .io => { counts with io := some n }
  | .write => { counts with write := some n }

@[simp] theorem get?_set (counts : FailureCounts) (c d : Category) (n : Nat) :
    (counts.set c n).get? d = if c = d then some n else counts.get? d := by
  cases c <;> cases d <;> rfl

/-- The count of a category. -/
def count (counts : FailureCounts) (c : Category) : Nat := (counts.get? c).getD 0

/-- Counts one more failure. -/
def record (counts : FailureCounts) (c : Category) : FailureCounts :=
  counts.set c (counts.count c + 1)

/-- The categories that were counted, with their counts, in order. -/
def toList (counts : FailureCounts) : List (Category × Nat) :=
  Category.all.filterMap fun c => (counts.get? c).map (c, ·)

/-- The number of all failures. -/
def total (counts : FailureCounts) : Nat :=
  counts.toList.foldr (fun counted n => counted.2 + n) 0

@[simp] theorem count_record (counts : FailureCounts) (c d : Category) :
    (counts.record c).count d = counts.count d + if c = d then 1 else 0 := by
  by_cases h : c = d
  · subst h; simp [record, count]
  · simp [record, count, h]

end FailureCounts

end PageMend
