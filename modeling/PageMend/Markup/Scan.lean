import PageMend.Markup.Reading

/-!
# The tokens of a page

`scan` reads all tokens of a page, in order, up to its end or up to the first fault. Behind the
start tag of a script or style sheet all is raw text, up to the end tag that closes it.

Reading always ends, because no token is empty: `length_rest_lt` says that each one leaves fewer
characters to be read.
-/

namespace PageMend.Markup

/-! ### Raw text -/

/-- How deep the nesting of `name` is behind a token, or `none` if the token is the end tag that
closes the outermost. Only tags of exactly that name count. -/
def Token.depthBehind (name : List Char) (depth : Nat) : Token → Option Nat
  | .startTag n _ => some (if n = name then depth + 1 else depth)
  | .endTag n =>
    if n = name then
      match depth with
      | 0 => none
      | depth + 1 => some depth
    else some depth
  | _ => some depth

/-- What stands behind the start tag of a script or style sheet. -/
inductive Body where
  /-- The body, and the rest of the text from the end tag on. -/
  | closed (body rest : List Char)
  | broken (fault : Fault) (consumed : Nat)
  deriving DecidableEq, Repr

/-- Puts text in front of a body. -/
def Body.prepend (source : List Char) : Body → Body
  | .closed body rest => .closed (source ++ body) rest
  | .broken fault consumed => .broken fault (byteLength source + consumed)

/-- Reads a body up to the end tag that closes `depth + 1` open elements of that name. The tokens
in it steer where it ends, and are then thrown away. -/
def readBody (name : List Char) (depth : Nat) (cs : List Char) : Body :=
  match _h : readToken cs with
  | .finished _ => .broken (.unfinishedBody (String.ofList name)) (byteLength cs)
  | .failed fault consumed => .broken fault consumed
  | .lexeme l rest =>
    match l.token.depthBehind name depth with
    | none => .closed [] cs
    | some depth => (readBody name depth rest).prepend l.source
termination_by cs.length
decreasing_by exact length_rest_lt _h

/-- The recursion of `readBody`, without the equations that show that it ends. -/
theorem readBody_eq (name : List Char) (depth : Nat) (cs : List Char) :
    readBody name depth cs =
      match readToken cs with
      | .finished _ => .broken (.unfinishedBody (String.ofList name)) (byteLength cs)
      | .failed fault consumed => .broken fault consumed
      | .lexeme l rest =>
        match l.token.depthBehind name depth with
        | none => .closed [] cs
        | some depth => (readBody name depth rest).prepend l.source := by
  rw [readBody]
  split <;> rename_i h <;> rw [h]

theorem append_of_readBody {name cs body rest : List Char} {depth : Nat}
    (h : readBody name depth cs = .closed body rest) : body ++ rest = cs := by
  fun_induction readBody name depth cs generalizing body rest with
  | case1 => cases h
  | case2 => cases h
  | case3 => cases h; rfl
  | case4 depth cs l rest' hr d _ ih =>
    cases hb : readBody name d rest' with
    | broken => rw [hb] at h; cases h
    | closed body' rest'' =>
      rw [hb] at h
      cases h
      rw [List.append_assoc, ih hb, source_append_rest hr]

/-! ### All tokens -/

/-- How the reading of a page ends. -/
inductive Ending where
  /-- At the end of the page. A `<` with nothing behind it is lost. -/
  | finished (lost : List Char)
  /-- At a fault, with so many bytes in front of it since the last token. -/
  | failed (fault : Fault) (consumed : Nat)
  deriving DecidableEq, Repr

/-- The tokens of a page, up to where its reading ends. -/
structure Scan where
  lexemes : List Lexeme
  ending : Ending
  deriving DecidableEq, Repr

/-- Puts tokens in front. -/
def Scan.prepend (ls : List Lexeme) (s : Scan) : Scan := { s with lexemes := ls ++ s.lexemes }

/-- The name of the element that a token opens, if its body is raw text. -/
def Token.rawTextName? : Token → Option (List Char)
  | .startTag name _ => if isRawTextName (String.ofList name) then some name else none
  | _ => none

/-- A body as a token. An empty body is none. -/
def rawLexemes (body : List Char) : List Lexeme :=
  if body = [] then [] else [⟨.rawText body, body⟩]

theorem length_rawLexemes_le (body : List Char) : (rawLexemes body).length ≤ body.length := by
  cases body <;> simp [rawLexemes]

/-- Reads all tokens of a text. -/
def scanFrom (cs : List Char) : Scan :=
  match _h : readToken cs with
  | .finished lost => ⟨[], .finished lost⟩
  | .failed fault consumed => ⟨[], .failed fault consumed⟩
  | .lexeme l rest =>
    match l.token.rawTextName? with
    | none => (scanFrom rest).prepend [l]
    | some name =>
      match _hb : readBody name 0 rest with
      | .broken fault consumed => ⟨[l], .failed fault consumed⟩
      | .closed body rest => (scanFrom rest).prepend (l :: rawLexemes body)
termination_by cs.length
decreasing_by
  · exact length_rest_lt _h
  · have hl := congrArg List.length (append_of_readBody _hb)
    have := length_rest_lt _h
    simp only [List.length_append] at hl
    omega

/-- The recursion of `scanFrom`, without the equations that show that it ends. -/
theorem scanFrom_eq (cs : List Char) :
    scanFrom cs =
      match readToken cs with
      | .finished lost => ⟨[], .finished lost⟩
      | .failed fault consumed => ⟨[], .failed fault consumed⟩
      | .lexeme l rest =>
        match l.token.rawTextName? with
        | none => (scanFrom rest).prepend [l]
        | some name =>
          match readBody name 0 rest with
          | .broken fault consumed => ⟨[l], .failed fault consumed⟩
          | .closed body rest => (scanFrom rest).prepend (l :: rawLexemes body) := by
  rw [scanFrom]
  split <;> rename_i h <;> rw [h]
  dsimp only
  split
  · rfl
  · split <;> rename_i hb <;> rw [hb]

/-- The text without a byte-order mark at its start. -/
def withoutMark : List Char → List Char
  | '\uFEFF' :: cs => cs
  | cs => cs

/-- Reads all tokens of a page. -/
def scan (page : String) : Scan := scanFrom (withoutMark page.toList)

end PageMend.Markup
