import PageMend.Markup.Scan
import PageMend.Markup.Attribute
import PageMend.Markup.Tree.Basic

/-!
# From tokens to a tree

`parse` reads a page. The tokens are added to the tree one by one, each below the innermost open
element. A start tag opens its element, unless the element is void; an end tag closes the
innermost open element and has to bear exactly its name. The end tag of a void element closes
nothing and is kept as it is written.
-/

namespace PageMend.Markup

/-- A tree that is being read. -/
structure Growth where
  tree : Tree
  /-- The open elements and their names, innermost first. -/
  opened : List (Nat × List Char)
  /-- The number of bytes read so far. -/
  offset : Nat

namespace Growth

def start : Growth := ⟨.empty, [], 0⟩

/-- The node below which the next token goes. -/
def innermost (g : Growth) : Nat := (g.opened.head?.map Prod.fst).getD Tree.root

/-- Adds a node below the innermost open element. -/
def put (g : Growth) (kind : Kind) : Growth :=
  { g with tree := g.tree.appendChild g.innermost kind }

/-- The element of a tag. -/
def elementOf (name attributes : List Char) (selfClosing : Bool) :
    Except AttributeFault Element :=
  (readAttributes name attributes).map fun read =>
    { name := String.ofList name
      attributes := String.ofList attributes
      classes := classNames read
      selfClosing }

/-- Adds a token, of which the last character has been read. -/
def addToken (g : Growth) (token : Token) : Except Fault Growth :=
  match token with
  | .text body | .rawText body => .ok (g.put (.text (String.ofList body)))
  | .comment _ | .cdata _ | .instruction _ | .doctype _ =>
    .ok (g.put (.markup (String.ofList token.spelling)))
  | .startTag name attributes =>
    match elementOf name attributes false with
    | .error fault => .error (.attribute fault)
    | .ok e =>
      let id := g.tree.size
      let g := g.put (.element e)
      .ok (if e.isVoid then g else { g with opened := (id, name) :: g.opened })
  | .emptyTag name attributes =>
    match elementOf name attributes true with
    | .error fault => .error (.attribute fault)
    | .ok e => .ok (g.put (.element e))
  | .endTag name =>
    if isVoidName (String.ofList name) then .ok (g.put (.markup (String.ofList token.spelling)))
    else
      match g.opened with
      | [] => .error (.strayEnd (String.ofList name))
      | (_, expected) :: opened =>
        if expected = name then .ok { g with opened }
        else .error (.mismatchedEnd (String.ofList expected) (String.ofList name))

/-- Adds a token and counts the bytes of its source. A fault shows behind the token. -/
def add (g : Growth) (l : Lexeme) : Except MarkupError Growth :=
  let offset := g.offset + byteLength l.source
  match g.addToken l.token with
  | .error fault => .error ⟨offset, fault⟩
  | .ok g => .ok { g with offset }

/-- The tree, if the reading ended well and no element is open. -/
def finish (g : Growth) : Ending → Except MarkupError Tree
  | .failed fault consumed => .error ⟨g.offset + consumed, fault⟩
  | .finished lost =>
    match g.opened with
    | [] => .ok g.tree
    | (_, name) :: _ =>
      .error ⟨g.offset + byteLength lost, .unclosed (String.ofList name)⟩

end Growth

/-- Reads a page. -/
def parse (page : String) : Except MarkupError Tree := do
  let s := scan page
  let g ← s.lexemes.foldlM Growth.add Growth.start
  g.finish s.ending

end PageMend.Markup
