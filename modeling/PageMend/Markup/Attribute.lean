import PageMend.Markup.Token
import PageMend.Markup.Fault

/-!
# Attributes of a tag

`readAttributes` reads what follows the name in a tag. An attribute is a key, or a key and a value
behind `=`; a value stands in quotation marks or ends at a blank. No key may stand twice. Places in
faults count bytes from the start of the tag's name.
-/

namespace PageMend.Markup

open Text (isMarkupBlank)

/-- A key with its place, and its value, which is empty for a key alone. -/
structure Attribute where
  key : List Char
  place : Nat
  value : List Char
  deriving DecidableEq, Repr

/-- The value behind an equals sign at `place`, with the place and the text behind it. -/
def readValue (place : Nat) (cs : List Char) :
    Except AttributeFault (List Char × Nat × List Char) :=
  let blanks := cs.takeWhile isMarkupBlank
  let start := place + byteLength blanks
  match cs.dropWhile isMarkupBlank with
  | [] => .error (.missingValue start)
  | c :: cs =>
    if c = '"' ∨ c = '\'' then
      let value := cs.takeWhile (· ≠ c)
      match cs.dropWhile (· ≠ c) with
      | [] => .error (.missingQuote (start + 1 + byteLength value) c)
      | _ :: rest => .ok (value, start + byteLength value + 2, rest)
    else
      let value := c :: cs.takeWhile (!isMarkupBlank ·)
      .ok (value, start + byteLength value, cs.dropWhile (!isMarkupBlank ·))

/-- The place at which a key was seen. -/
def placeOf? (key : List Char) (seen : List Attribute) : Option Nat :=
  (seen.find? (·.key = key)).map (·.place)

/-- Whether a character ends a key. -/
def endsKey (c : Char) : Bool := c == '=' || isMarkupBlank c

theorem length_dropWhile_le (p : Char → Bool) (cs : List Char) :
    (cs.dropWhile p).length ≤ cs.length := by
  have := congrArg List.length (List.takeWhile_append_dropWhile (p := p) (l := cs))
  simp only [List.length_append] at this
  omega

theorem length_of_readValue {place place' : Nat} {cs value rest : List Char}
    (h : readValue place cs = .ok (value, place', rest)) : rest.length ≤ cs.length := by
  have hb := length_dropWhile_le isMarkupBlank cs
  unfold readValue at h
  dsimp only at h
  split at h
  · cases h
  · rename_i c cs' hd
    rw [hd, List.length_cons] at hb
    split at h
    · split at h
      · cases h
      · rename_i hq
        cases h
        have := length_dropWhile_le (fun x => decide (x ≠ c)) cs'
        rw [hq, List.length_cons] at this
        omega
    · cases h
      have := length_dropWhile_le (!isMarkupBlank ·) cs'
      omega

/-- Reads attributes from a text at `place`, behind those in `seen`. -/
def readAttributesFrom (seen : List Attribute) (place : Nat) (cs : List Char) :
    Except AttributeFault (List Attribute) :=
  let blanks := cs.takeWhile isMarkupBlank
  let start := place + byteLength blanks
  match _hk : cs.dropWhile isMarkupBlank with
  | [] => .ok seen
  | c :: cs' =>
    -- a key has at least one character, and that may be an equals sign
    let key := c :: cs'.takeWhile (!endsKey ·)
    match placeOf? key seen with
    | some previous => .error (.duplicated start previous)
    | none =>
      let behind := cs'.dropWhile (!endsKey ·)
      let gap := behind.takeWhile isMarkupBlank
      let next := start + byteLength key + byteLength gap
      match hg : behind.dropWhile isMarkupBlank with
      | '=' :: cs'' =>
        match hv : readValue (next + 1) cs'' with
        | .error fault => .error fault
        | .ok (value, place, rest) => readAttributesFrom (seen ++ [⟨key, start, value⟩]) place rest
      | rest => readAttributesFrom (seen ++ [⟨key, start, []⟩]) next rest
termination_by cs.length
decreasing_by
  all_goals
    have h1 := length_dropWhile_le isMarkupBlank cs
    have h2 := length_dropWhile_le (!endsKey ·) cs'
    have h3 := length_dropWhile_le isMarkupBlank (cs'.dropWhile (!endsKey ·))
    rw [_hk, List.length_cons] at h1
    rw [show cs'.dropWhile (!endsKey ·) = behind from rfl, hg] at h3
    rw [show cs'.dropWhile (!endsKey ·) = behind from rfl] at h2
  · have h4 := length_of_readValue hv
    rw [List.length_cons] at h3
    omega
  · omega

/-- The attributes of a tag, from its name and what follows the name. -/
def readAttributes (name attributes : List Char) : Except AttributeFault (List Attribute) :=
  readAttributesFrom [] (byteLength name) attributes

/-- The class names among attributes: the words of the value of `class`. -/
def classNames (attributes : List Attribute) : List String :=
  (attributes.filter (·.key = "class".toList)).flatMap fun a =>
    (Text.words a.value).map String.ofList

end PageMend.Markup
