/-!
# Bytes as text

`decode` reads bytes as UTF-8. Bytes that are no text are answered with the place and the length
of their first bad sequence: the bad part is as long as the bytes that could still have started a
character, and at least one byte. A text that was encoded is always read back (`decode_toUTF8`).
-/

namespace PageMend.Text.Utf8

/-- Why bytes are not UTF-8. `start` counts the good bytes in front. -/
inductive Fault where
  /-- `length` bytes that start no character. -/
  | invalid (start length : Nat)
  /-- The input ends inside a character. -/
  | incomplete (start : Nat)
  deriving DecidableEq, Repr

def Fault.message : Fault → String
  | .invalid start length =>
    "invalid utf-8 sequence of " ++ toString length ++ " bytes from index " ++ toString start
  | .incomplete start => "incomplete utf-8 byte sequence from index " ++ toString start

/-- The ranges that the bytes behind a first byte have to lie in, or `none` if no character
starts with that byte. -/
def followers (first : UInt8) : Option (List (UInt8 × UInt8)) :=
  if first < 0x80 then some []
  else if first < 0xC2 then none
  else if first < 0xE0 then some [(0x80, 0xBF)]
  else if first = 0xE0 then some [(0xA0, 0xBF), (0x80, 0xBF)]
  else if first = 0xED then some [(0x80, 0x9F), (0x80, 0xBF)]
  else if first < 0xF0 then some [(0x80, 0xBF), (0x80, 0xBF)]
  else if first = 0xF0 then some [(0x90, 0xBF), (0x80, 0xBF), (0x80, 0xBF)]
  else if first < 0xF4 then some [(0x80, 0xBF), (0x80, 0xBF), (0x80, 0xBF)]
  else if first = 0xF4 then some [(0x80, 0x8F), (0x80, 0xBF), (0x80, 0xBF)]
  else none

/-- How the bytes behind a first byte meet their ranges. -/
inductive Follow where
  | complete (rest : List UInt8)
  | broken (length : Nat)
  | cut

/-- Matches bytes against ranges; `seen` counts the bytes of the character so far. -/
def follow : List (UInt8 × UInt8) → Nat → List UInt8 → Follow
  | [], _, bytes => .complete bytes
  | _ :: _, _, [] => .cut
  | (lo, hi) :: ranges, seen, b :: bytes =>
    if lo ≤ b ∧ b ≤ hi then follow ranges (seen + 1) bytes else .broken seen

theorem length_of_follow {ranges : List (UInt8 × UInt8)} {seen : Nat} {bytes rest : List UInt8}
    (h : follow ranges seen bytes = .complete rest) : rest.length ≤ bytes.length := by
  fun_induction follow ranges seen bytes with
  | case1 => cases h; exact Nat.le_refl _
  | case2 => cases h
  | case3 lo hi ranges seen b bytes _ ih => exact Nat.le_succ_of_le (ih h)
  | case4 => cases h

/-- The first bad sequence, with `start` good bytes in front of the given ones. -/
def firstFault (start : Nat) : List UInt8 → Option Fault
  | [] => none
  | b :: bytes =>
    match followers b with
    | none => some (.invalid start 1)
    | some ranges =>
      match h : follow ranges 1 bytes with
      | .complete rest => firstFault (start + 1 + ranges.length) rest
      | .broken length => some (.invalid start length)
      | .cut => some (.incomplete start)
termination_by bytes => bytes.length
decreasing_by
  have := length_of_follow h
  simp only [List.length_cons]
  omega

/-- Reads bytes as text. -/
def decode (bytes : ByteArray) : Except Fault String :=
  match String.fromUTF8? bytes with
  | some text => .ok text
  | none => .error ((firstFault 0 bytes.toList).getD (.incomplete bytes.size))

@[simp] theorem decode_toUTF8 (s : String) : decode s.toUTF8 = .ok s := by
  have h : String.fromUTF8? s.toUTF8 = some s := by
    simp only [String.fromUTF8?, String.toUTF8_eq_toByteArray, dif_pos s.isValidUTF8]
    rfl
  simp only [decode, h]

end PageMend.Text.Utf8
