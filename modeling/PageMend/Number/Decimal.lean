/-!
# Decimal notation

Numbers written with decimal digits, perhaps with a point and an exponent: `Decimal.read?` reads
such a text, `Decimal.positional` writes a number without an exponent.
-/

namespace PageMend.Number

/-- The number `digits * 10 ^ exponent`, or its opposite. -/
structure Decimal where
  negative : Bool := false
  digits : Nat
  exponent : Int := 0
  deriving DecidableEq, Repr

/-- The number that some decimal digits stand for. -/
def ofDigits (cs : List Char) : Nat := cs.foldl (fun n c => 10 * n + (c.toNat - 48)) 0

/-- Takes a sign, if there is one. -/
def takeSign : List Char → Bool × List Char
  | '-' :: cs => (true, cs)
  | '+' :: cs => (false, cs)
  | cs => (false, cs)

/-- Reads an exponent, with the letter in front of it, or nothing. -/
def readExponent? : List Char → Option Int
  | [] => some 0
  | c :: cs =>
    let (negative, digits) := takeSign cs
    if (c = 'e' ∨ c = 'E') ∧ digits ≠ [] ∧ digits.all Char.isDigit then
      some (if negative then -(ofDigits digits) else ofDigits digits)
    else none

/-- Takes a point and the digits behind it, if there is a point. -/
def takeFraction : List Char → List Char × List Char
  | '.' :: cs => cs.span Char.isDigit
  | cs => ([], cs)

/-- Reads a number: a sign, digits with or without a point among them, and an exponent. Only the
digits have to be there. -/
def Decimal.read? (cs : List Char) : Option Decimal := do
  let (negative, cs) := takeSign cs
  let (whole, cs) := cs.span Char.isDigit
  let (fraction, cs) := takeFraction cs
  let exponent ← readExponent? cs
  if whole ++ fraction = [] then none
  else return { negative, digits := ofDigits (whole ++ fraction),
                exponent := exponent - fraction.length }

/-- The decimal digits of a number. -/
def decimalDigits (n : Nat) : List Char := Nat.toDigits 10 n

/-- The number in digits, with a point and at least one digit on both sides of it. -/
def Decimal.positional (d : Decimal) : List Char :=
  let digits := decimalDigits d.digits
  let sign := if d.negative then ['-'] else []
  if 0 ≤ d.exponent then
    sign ++ digits ++ List.replicate d.exponent.toNat '0' ++ ['.', '0']
  else
    let places := (-d.exponent).toNat
    let padded := List.replicate (places + 1 - digits.length) '0' ++ digits
    sign ++ padded.take (padded.length - places) ++ ['.'] ++ padded.drop (padded.length - places)

end PageMend.Number
