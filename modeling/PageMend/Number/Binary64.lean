import PageMend.Number.Decimal

/-!
# Binary floating point

A floating point number of 64 bits is `significand * 2 ^ exponent`, with a significand below
`2 ^ 53` and an exponent that is at least `-1074`. `nearest?` finds the one next to a decimal
number, `shortest` the decimal number with the fewest digits that leads back to it.
-/

namespace PageMend.Number

/-- A floating point number that is not negative. -/
structure Binary64 where
  significand : Nat
  exponent : Int
  deriving DecidableEq, Repr

/-- The quotient, rounded to the nearest integer; a half goes to the even neighbour. -/
def roundDiv (num den : Nat) : Nat :=
  let q := num / den
  let r := num % den
  if den < 2 * r ∨ (2 * r = den ∧ q % 2 = 1) then q + 1 else q

/-- A numerator and a denominator of `n * base ^ exponent`. -/
def ratio (base n : Nat) (exponent : Int) : Nat × Nat :=
  if 0 ≤ exponent then (n * Nat.pow base exponent.toNat, 1)
  else (n, Nat.pow base (-exponent).toNat)

namespace Binary64

def leastExponent : Int := -1074

def greatestExponent : Int := 971

/-- The integer part of the binary logarithm of a quotient. -/
def logarithm (num den : Nat) : Int :=
  let guess : Int := Nat.log2 num - Nat.log2 den
  let (a, b) := ratio 2 den guess
  if num * b < a then guess - 1 else guess

/-- The floating point number nearest to a quotient, or `none` if that is too great. -/
def ofRatio? (num den : Nat) : Option Binary64 :=
  let exponent := max (logarithm num den - 52) leastExponent
  let (a, b) := ratio 2 den exponent
  let m := roundDiv (num * b) a
  let n : Binary64 := if m = Nat.pow 2 53 then ⟨Nat.pow 2 52, exponent + 1⟩ else ⟨m, exponent⟩
  if n.exponent ≤ greatestExponent then some n else none

/-- The floating point number nearest to the absolute value of a decimal number, or `none` if that
is too great. -/
def nearest? (d : Decimal) : Option Binary64 :=
  let magnitude := d.exponent + (decimalDigits d.digits).length
  if d.digits = 0 ∨ magnitude < -400 then some ⟨0, leastExponent⟩
  else if 400 < magnitude then none
  else
    let (num, den) := ratio 10 d.digits d.exponent
    ofRatio? num den

/-- The number of digits in front of the point of a quotient, or, negative, the number of zeros
behind it. -/
def magnitude (num den : Nat) : Int :=
  if den ≤ num then (decimalDigits (num / den)).length
  else -(((List.range 400).find? fun j => den ≤ num * Nat.pow 10 (j + 1)).getD 0)

/-- The decimal numbers with so many digits that lead back to the number, the nearest one first:
of the two neighbours on the grid of such numbers, those between the bounds of the number. -/
def candidates (n : Binary64) (size : Nat) : List Decimal :=
  let unit (k : Nat) := ratio 2 k (n.exponent - 2)
  let (value, den) := unit (4 * n.significand)
  let narrow := n.significand = Nat.pow 2 52 ∧ leastExponent < n.exponent
  let low := (unit (4 * n.significand - if narrow then 1 else 2)).1
  let high := (unit (4 * n.significand + 2)).1
  let exponent := magnitude value den - size
  let (a, b) := ratio 10 den exponent
  let below := value * b / a
  let inside (c : Nat) : Bool :=
    if n.significand % 2 = 0 then low * b ≤ c * a && c * a ≤ high * b
    else low * b < c * a && c * a < high * b
  let above := below + 1
  let ordered :=
    if 2 * (value * b) < (below + above) * a then [below, above] else [above, below]
  (ordered.filter inside).map fun digits => { digits, exponent }

/-- A decimal number with the fewest digits that leads back to the number. -/
def shortest (n : Binary64) : Decimal :=
  if n.significand = 0 then { digits := 0 }
  else
    ((List.range 17).findSome? fun i => (n.candidates (i + 1)).head?).getD { digits := 0 }

end Binary64

end PageMend.Number
