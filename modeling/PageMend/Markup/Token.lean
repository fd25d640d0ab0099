import PageMend.Text.Blank

/-!
# Tokens of a page

A page is a sequence of tokens. `Token.spelling` is how a token is written: every token has one
spelling, though a page may spell the same token in other ways (`</p >`, `<!doctype html>`). A
`Lexeme` is a token together with the characters of the page that it was read from.
-/

namespace PageMend.Markup

/-- A token of a page. The texts are as written, with character references left alone. -/
inductive Token where
  /-- Characters up to the next tag. -/
  | text (body : List Char)
  /-- A start tag: the name and all that follows it inside the brackets. -/
  | startTag (name attributes : List Char)
  /-- A tag that is its own end tag. -/
  | emptyTag (name attributes : List Char)
  | endTag (name : List Char)
  /-- The body of a script or style sheet. -/
  | rawText (body : List Char)
  | comment (body : List Char)
  | cdata (body : List Char)
  /-- A processing instruction or declaration, between its question marks. -/
  | instruction (body : List Char)
  | doctype (body : List Char)
  deriving DecidableEq, Repr

/-- How a token is written. -/
def Token.spelling : Token → List Char
  | .text body => body
  | .startTag name attributes => '<' :: name ++ attributes ++ ['>']
  | .emptyTag name attributes => '<' :: name ++ attributes ++ ['/', '>']
  | .endTag name => '<' :: '/' :: name ++ ['>']
  | .rawText body => body
  | .comment body => "<!--".toList ++ body ++ "-->".toList
  | .cdata body => "<![CDATA[".toList ++ body ++ "]]>".toList
  | .instruction body => "<?".toList ++ body ++ "?>".toList
  | .doctype body => "<!DOCTYPE ".toList ++ body ++ ['>']

namespace Token

@[simp] theorem spelling_text (body : List Char) : (text body).spelling = body := rfl

@[simp] theorem spelling_startTag (name attributes : List Char) :
    (startTag name attributes).spelling = '<' :: name ++ attributes ++ ['>'] := rfl

@[simp] theorem spelling_emptyTag (name attributes : List Char) :
    (emptyTag name attributes).spelling = '<' :: name ++ attributes ++ ['/', '>'] := rfl

@[simp] theorem spelling_endTag (name : List Char) :
    (endTag name).spelling = '<' :: '/' :: name ++ ['>'] := rfl

@[simp] theorem spelling_rawText (body : List Char) : (rawText body).spelling = body := rfl

@[simp] theorem spelling_comment (body : List Char) :
    (comment body).spelling = ['<', '!', '-', '-'] ++ body ++ ['-', '-', '>'] := rfl

@[simp] theorem spelling_cdata (body : List Char) :
    (cdata body).spelling =
      ['<', '!', '[', 'C', 'D', 'A', 'T', 'A', '['] ++ body ++ [']', ']', '>'] := rfl

@[simp] theorem spelling_instruction (body : List Char) :
    (instruction body).spelling = ['<', '?'] ++ body ++ ['?', '>'] := rfl

@[simp] theorem spelling_doctype (body : List Char) :
    (doctype body).spelling =
      ['<', '!', 'D', 'O', 'C', 'T', 'Y', 'P', 'E', ' '] ++ body ++ ['>'] := rfl

end Token

/-- A token and the characters that it was read from. -/
structure Lexeme where
  token : Token
  source : List Char
  deriving DecidableEq, Repr

/-- The number of bytes that a text takes in UTF-8. -/
def byteLength : List Char → Nat
  | [] => 0
  | c :: cs => c.utf8Size + byteLength cs

@[simp] theorem byteLength_nil : byteLength [] = 0 := rfl

@[simp] theorem byteLength_cons (c : Char) (cs : List Char) :
    byteLength (c :: cs) = c.utf8Size + byteLength cs := rfl

@[simp] theorem byteLength_append (xs ys : List Char) :
    byteLength (xs ++ ys) = byteLength xs + byteLength ys := by
  induction xs with
  | nil => simp
  | cons c cs ih => simp [ih, Nat.add_assoc]

theorem byteLength_eq_utf8ByteSize (cs : List Char) :
    byteLength cs = (String.ofList cs).utf8ByteSize := by
  induction cs with
  | nil => rfl
  | cons c cs ih =>
    have hcons : String.ofList (c :: cs) = String.singleton c ++ String.ofList cs := by
      apply String.toList_injective
      simp
    rw [hcons, String.utf8ByteSize_append, String.utf8ByteSize_singleton, byteLength_cons, ih]

theorem byteLength_toList (s : String) : byteLength s.toList = s.utf8ByteSize := by
  rw [byteLength_eq_utf8ByteSize, String.ofList_toList]

theorem byteLength_pos {cs : List Char} (h : cs ≠ []) : 0 < byteLength cs := by
  cases cs with
  | nil => exact absurd rfl h
  | cons c cs => exact Nat.lt_of_lt_of_le c.utf8Size_pos (Nat.le_add_right _ _)

theorem length_le_byteLength (cs : List Char) : cs.length ≤ byteLength cs := by
  induction cs with
  | nil => exact Nat.le_refl 0
  | cons c cs ih =>
    have hc := c.utf8Size_pos
    simp only [List.length_cons, byteLength_cons]
    omega

/-- Names whose elements never have content or an end tag. -/
def voidNames : List String :=
  ["area", "base", "br", "col", "embed", "hr", "img", "input", "link", "meta", "param",
    "source", "track", "wbr"]

/-- Whether two names are the same up to the case of ASCII letters. -/
def sameName (a b : String) : Bool :=
  a.toList.map Char.toLower == b.toList.map Char.toLower

/-- Whether elements of that name never have content or an end tag. -/
def isVoidName (name : String) : Bool := voidNames.any (sameName name)

/-- Whether the body of an element of that name is raw text. -/
def isRawTextName (name : String) : Bool := sameName name "script" || sameName name "style"

end PageMend.Markup
