import PageMend.Text.Blank

/-!
# Timestamps

A point in time, in the civil calendar and in universal time. `Timestamp.format` writes it as
RFC 3339 says; the fraction of the second has as many digits as it needs, in steps of three.
`Timestamp.read?` reads such a text. It accepts blanks in front of each number, a blank between
date and time, and any offset of less than a day, by which the time is moved.
-/

namespace PageMend

structure Timestamp where
  year : Int
  month : Nat
  day : Nat
  hour : Nat
  minute : Nat
  /-- Up to 60, which is a leap second. -/
  second : Nat
  nanosecond : Nat
  deriving DecidableEq, Repr

namespace Timestamp

/-! ### The calendar -/

def isLeapYear (year : Int) : Bool := year % 4 = 0 && (year % 100 ≠ 0 || year % 400 = 0)

def daysInMonth (year : Int) (month : Nat) : Nat :=
  if month = 2 then if isLeapYear year then 29 else 28
  else if month = 4 ∨ month = 6 ∨ month = 9 ∨ month = 11 then 30
  else 31

/-- The years of the calendar. -/
def hasYear (year : Int) : Bool := -262143 ≤ year && year ≤ 262142

/-- Whether the numbers name a point in time. -/
def IsValid (t : Timestamp) : Prop :=
  hasYear t.year ∧ (1 ≤ t.month ∧ t.month ≤ 12) ∧
    (1 ≤ t.day ∧ t.day ≤ daysInMonth t.year t.month) ∧ t.hour < 24 ∧ t.minute < 60 ∧
    t.second ≤ 60 ∧ t.nanosecond < 1000000000

instance : DecidablePred IsValid := fun t => by unfold IsValid; infer_instance

/-- The same time on the next day. -/
def nextDay (t : Timestamp) : Timestamp :=
  if t.day < daysInMonth t.year t.month then { t with day := t.day + 1 }
  else if t.month < 12 then { t with month := t.month + 1, day := 1 }
  else { t with year := t.year + 1, month := 1, day := 1 }

/-- The same time on the previous day. -/
def previousDay (t : Timestamp) : Timestamp :=
  if 1 < t.day then { t with day := t.day - 1 }
  else if 1 < t.month then
    { t with month := t.month - 1, day := daysInMonth t.year (t.month - 1) }
  else { t with year := t.year - 1, month := 12, day := 31 }

/-- The time that is so many minutes earlier; fewer than those of a day. -/
def minusMinutes (t : Timestamp) (minutes : Int) : Timestamp :=
  let total : Int := t.hour * 60 + t.minute - minutes
  let (t, total) :=
    if total < 0 then (t.previousDay, total + 1440)
    else if 1440 ≤ total then (t.nextDay, total - 1440)
    else (t, total)
  { t with hour := total.toNat / 60, minute := total.toNat % 60 }

/-! ### Writing -/

/-- A number with at least so many digits. -/
def padded (width n : Nat) : List Char :=
  let digits := Nat.toDigits 10 n
  List.replicate (width - digits.length) '0' ++ digits

/-- Years of four digits are written as they are, others with a sign. -/
def formatYear (year : Int) : List Char :=
  if 0 ≤ year ∧ year ≤ 9999 then padded 4 year.toNat
  else (if year < 0 then '-' else '+') :: padded 4 year.natAbs

/-- The fraction of a second, in thousandths, millionths or billionths. -/
def formatFraction (nanosecond : Nat) : List Char :=
  if nanosecond = 0 then []
  else if nanosecond % 1000000 = 0 then '.' :: padded 3 (nanosecond / 1000000)
  else if nanosecond % 1000 = 0 then '.' :: padded 6 (nanosecond / 1000)
  else '.' :: padded 9 nanosecond

def formatChars (t : Timestamp) : List Char :=
  formatYear t.year ++ '-' :: padded 2 t.month ++ '-' :: padded 2 t.day ++
    'T' :: padded 2 t.hour ++ ':' :: padded 2 t.minute ++ ':' :: padded 2 t.second ++
    formatFraction t.nanosecond ++ ['Z']

def format (t : Timestamp) : String := String.ofList t.formatChars

/-! ### Reading -/

def skipBlanks (cs : List Char) : List Char := cs.dropWhile Text.isBlank

/-- The number that a run of digits stands for. -/
def numberOf (digits : List Char) : Nat :=
  digits.foldl (fun n c => 10 * n + (c.toNat - '0'.toNat)) 0

/-- Reads a number of one to `width` digits, behind blanks. -/
def readNumber (width : Nat) (cs : List Char) : Option (Nat × List Char) :=
  let cs := skipBlanks cs
  let digits := (cs.take width).takeWhile Char.isDigit
  if digits = [] then none else some (numberOf digits, cs.drop digits.length)

/-- Reads a year: up to four digits, or any number of them behind a sign. -/
def readYear (cs : List Char) : Option (Int × List Char) :=
  match skipBlanks cs with
  | '-' :: cs => if (cs.head?.any Char.isDigit) then
      (readNumber cs.length cs).map fun (n, rest) => (-(n : Int), rest) else none
  | '+' :: cs => if (cs.head?.any Char.isDigit) then
      (readNumber cs.length cs).map fun (n, rest) => ((n : Int), rest) else none
  | cs => (readNumber 4 cs).map fun (n, rest) => ((n : Int), rest)

/-- Reads a sign, behind blanks. -/
def readSign (sign : Char) (cs : List Char) : Option (List Char) :=
  match skipBlanks cs with
  | c :: rest => if c = sign then some rest else none
  | [] => none

/-- Reads the letter or the blank between date and time. -/
def readBetween : List Char → Option (List Char)
  | c :: rest => if c = 'T' ∨ c = 't' ∨ c = ' ' then some rest else none
  | [] => none

/-- Reads the fraction of a second, if there is one. Digits behind the ninth do not count. -/
def readFraction : List Char → Option (Nat × List Char)
  | '.' :: cs =>
    let digits := cs.takeWhile Char.isDigit
    if digits = [] then none
    else
      let counted := digits.take 9
      some (numberOf counted * Nat.pow 10 (9 - counted.length), cs.dropWhile Char.isDigit)
  | cs => some (0, cs)

/-- Two digits. -/
def readTwoDigits : List Char → Option (Nat × List Char)
  | a :: b :: rest =>
    if a.isDigit ∧ b.isDigit then some (numberOf [a, b], rest) else none
  | _ => none

/-- Reads an offset from universal time, in minutes. -/
def readOffset (cs : List Char) : Option (Int × List Char) :=
  match cs with
  | [] => none
  | c :: rest =>
    if (cs.take 3).map Char.toLower = ['u', 't', 'c'] then some (0, cs.drop 3)
    else if c = 'Z' ∨ c = 'z' then some (0, rest)
    else do
      let negative ← if c = '+' then some false else if c = '-' ∨ c = '−' then some true else none
      let (hours, rest) ← readTwoDigits rest
      let (minutes, rest) ←
        readTwoDigits (rest.dropWhile fun c => c == ':' || Text.isBlank c)
      if 60 ≤ minutes ∨ 24 ≤ hours then none
      else
        let total : Int := hours * 60 + minutes
        some (if negative then -total else total, rest)

/-- Reads a timestamp. The time has to lie in the calendar both as it is written and as it is moved
by its offset. -/
def readChars? (cs : List Char) : Option Timestamp := do
  let (year, cs) ← readYear cs
  let (month, cs) ← readNumber 2 (← readSign '-' cs)
  let (day, cs) ← readNumber 2 (← readSign '-' cs)
  let (hour, cs) ← readNumber 2 (← readBetween cs)
  let (minute, cs) ← readNumber 2 (← readSign ':' cs)
  let (second, cs) ← readNumber 2 (← readSign ':' cs)
  let (nanosecond, cs) ← readFraction cs
  let (offset, cs) ← readOffset (skipBlanks cs)
  let t : Timestamp := { year, month, day, hour, minute, second, nanosecond }
  let moved := t.minusMinutes offset
  if t.IsValid ∧ moved.IsValid ∧ skipBlanks cs = [] then some moved else none

def read? (s : String) : Option Timestamp := readChars? s.toList

/-! ### The count of seconds -/

/-- The point in time that lies so many seconds behind the start of the year 1970. -/
def ofUnixTime (seconds : Int) (nanosecond : Nat) : Timestamp :=
  let days := seconds.fdiv 86400
  let rest := (seconds.fmod 86400).toNat
  -- days since the first of March of the year 0, in eras of 400 years
  let shifted := days + 719468
  let era := shifted.fdiv 146097
  let dayOfEra := (shifted.fmod 146097).toNat
  let yearOfEra := (dayOfEra - dayOfEra / 1460 + dayOfEra / 36524 - dayOfEra / 146096) / 365
  let dayOfYear := dayOfEra - (365 * yearOfEra + yearOfEra / 4 - yearOfEra / 100)
  let month := (5 * dayOfYear + 2) / 153
  let year : Int := yearOfEra + era * 400
  { year := if month < 10 then year else year + 1
    month := if month < 10 then month + 3 else month - 9
    day := dayOfYear - (153 * month + 2) / 5 + 1
    hour := rest / 3600
    minute := rest % 3600 / 60
    second := rest % 60
    nanosecond }

end Timestamp

end PageMend
