import PageMend.Number.Binary64
import PageMend.Text.Quoted

/-!
# What a plain scalar means

A scalar that is written without quotation marks may stand for nothing, a truth value or a number;
if it does not, it is a text. Digits behind a superfluous zero are a text.
-/

namespace PageMend.Yaml

open Number

/-- A floating point number. -/
inductive Floating where
  | finite (negative : Bool) (n : Binary64)
  | infinite (negative : Bool)
  | nan
  deriving DecidableEq, Repr

/-- What a plain scalar means. -/
inductive Meaning where
  | null
  | boolean (b : Bool)
  | integer (i : Int)
  | floating (x : Floating)
  | text
  deriving DecidableEq, Repr

/-! ### Nothing and truth values -/

def isNull (s : String) : Bool := s == "null" || s == "Null" || s == "NULL" || s == "~"

def boolean? (s : String) : Option Bool :=
  if s = "true" ∨ s = "True" ∨ s = "TRUE" then some true
  else if s = "false" ∨ s = "False" ∨ s = "FALSE" then some false
  else none

/-! ### Integers -/

/-- The value of a digit in a base up to sixteen. -/
def digit? (base : Nat) (c : Char) : Option Nat :=
  let value :=
    if c.isDigit then some (c.toNat - 48)
    else if 'a' ≤ c ∧ c ≤ 'f' then some (c.toNat - 87)
    else if 'A' ≤ c ∧ c ≤ 'F' then some (c.toNat - 55)
    else none
  value.filter (· < base)

/-- The number that some digits stand for. -/
def natural? (base : Nat) (cs : List Char) : Option Nat :=
  if cs = [] then none
  else (cs.mapM (digit? base)).map (List.foldl (fun n d => base * n + d) 0)

/-- Whether a number in digits has a zero in front that it does not need. -/
def hasSpareZero (cs : List Char) : Bool :=
  match cs with
  | '0' :: rest => !rest.isEmpty && rest.all Char.isDigit
  | _ => false

/-- The number behind a sign, in the base that it says. -/
def magnitude? (cs : List Char) : Option Nat :=
  match cs with
  | '0' :: 'x' :: digits => natural? 16 digits
  | '0' :: 'o' :: digits => natural? 8 digits
  | '0' :: 'b' :: digits => natural? 2 digits
  | cs => if hasSpareZero cs then none else natural? 10 cs

/-- The integer that a text stands for. It has to fit into 128 bits. -/
def integer? (cs : List Char) : Option Int :=
  match cs with
  | '-' :: cs =>
    ((magnitude? cs).filter (· ≤ Nat.pow 2 127)).map fun n => -(n : Int)
  | '+' :: cs | cs => ((magnitude? cs).filter (· < Nat.pow 2 128)).map fun n => (n : Int)

/-! ### Floating point -/

/-- The floating point number that a text stands for. It has to be written as infinite to be so. -/
def floating? (cs : List Char) : Option Floating :=
  let s := String.ofList cs
  let behindPlus := match cs with
    | '+' :: rest => rest
    | _ => cs
  let signTwice := cs.head? == some '+' && (behindPlus.head? == some '+' ||
    behindPlus.head? == some '-')
  if signTwice then none
  else if [".inf", ".Inf", ".INF"].contains (String.ofList behindPlus) then some (.infinite false)
  else if ["-.inf", "-.Inf", "-.INF"].contains s then some (.infinite true)
  else if [".nan", ".NaN", ".NAN"].contains s then some .nan
  else do
    let d ← Decimal.read? behindPlus
    return .finite d.negative (← Binary64.nearest? d)

def Floating.message : Floating → String
  | .finite negative n => String.ofList { n.shortest with negative }.positional
  | .infinite negative => if negative then "-inf" else "inf"
  | .nan => "NaN"

/-! ### All meanings -/

/-- What a text means as a plain scalar. -/
def Meaning.ofText (s : String) : Meaning :=
  if s = "" ∨ isNull s then .null
  else
    match boolean? s, integer? s.toList with
    | some b, _ => .boolean b
    | none, some i => .integer i
    | none, none =>
      if hasSpareZero (takeSign s.toList).2 then .text
      else
        match floating? s.toList with
        | some x => .floating x
        | none => .text

end PageMend.Yaml
