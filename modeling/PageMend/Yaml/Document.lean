import PageMend.Yaml.Frame
import PageMend.Yaml.Lexing

/-!
# Documents

`Document.ofText` reads the first document of a text as a tree. A text that is faulty still has a
tree: all that was read in front of the fault, with `missing` in its place. So what is wrong with
the content is noticed before a fault that comes later.

Anchors are numbered. The number of an anchor is the count of the different names before it, and
an alias takes the number that its name had last.
-/

namespace PageMend.Yaml

/-- Why a tree breaks off. -/
inductive Stop where
  | fault (f : Fault)
  /-- An alias for which there is no anchor in front. -/
  | unknownAnchor (mark : Mark)
  deriving DecidableEq, Repr

/-- The frames, and what names mean so far. -/
structure Assembly where
  frames : List Frame
  anchors : List (String × Nat) := []
  handles : List (String × String)

namespace Assembly

/-- The root, when it is complete. -/
def root? (a : Assembly) : Option Node :=
  match a.frames with
  | .document _ root :: _ => root
  | _ => none

/-! ### Properties -/

/-- Gives a number to an anchor. -/
def bind (a : Assembly) (name : String) : Nat × Assembly :=
  let number := a.anchors.length
  (number, { a with anchors := (name, number) :: a.anchors.filter (·.1 ≠ name) })

/-- The whole text of a tag, unless its handle is undefined. -/
def expand? (a : Assembly) (handle suffix : String) : Option String :=
  if handle = "" then some suffix else (a.handles.lookup handle).map (· ++ suffix)

/-! ### Taking a token -/

variable (a : Assembly) (t : Token)

/-- Takes a token as a further property of a node. -/
def takeProperty? (place : ContentPlace) (p : Properties) (undefined : Option Mark) :
    Option Assembly :=
  match t.sign with
  | .anchor name =>
    if p.anchor.isSome then none
    else
      let (number, a) := a.bind name
      some { a with
        frames := .properties place { p with anchor := some number } undefined :: a.frames }
  | .tag handle suffix =>
    if p.tag.isSome then none
    else
      let (tag, undefined) :=
        match a.expand? handle suffix with
        | some tag => (tag, undefined)
        | none => (suffix, some t.mark)
      some { a with frames := .properties place { p with tag } undefined :: a.frames }
  | _ => none

/-- Takes a token as the content of a node, of which all properties are known. -/
def takeContent (place : ContentPlace) (p : Properties) : Except Stop Assembly :=
  let opening (f : Frame) : Except Stop Assembly := .ok { a with frames := f :: a.frames }
  let refuse : Except Stop Assembly :=
    let context := if place = .flow then .flowNode else .blockNode
    .error (.fault (.inside context p.mark .nodeContent t.mark))
  match t.sign with
  | .scalar style text => .ok { a with frames := complete (.scalar p style text) a.frames }
  | .flowSequence => opening (.flowItems p t.mark [] true)
  | .flowMapping => opening (.flowEntries p t.mark [] .entry)
  | .blockSequence => if place = .flow then refuse else opening (.blockItems true p t.mark [] none)
  | .blockMapping => if place = .flow then refuse else opening (.blockEntries p t.mark [] .key)
  | .dash =>
    if place = .blockEntry then opening (.blockItems false p t.mark [] (some t.mark.right))
    else refuse
  | _ => refuse

/-- Takes a token behind the properties of a node, which the innermost frame waits for. -/
def takeBehind (place : ContentPlace) (p : Properties) (undefined : Option Mark) :
    Except Stop Assembly :=
  match a.takeProperty? t place p undefined, undefined with
  | some a, _ => .ok a
  | none, some mark => .error (.fault (.inside .node p.mark .undefinedHandle mark))
  | none, none => a.takeContent t place p

/-- Takes a token as the start of a node. -/
def takeNode (place : ContentPlace) : Except Stop Assembly :=
  match t.sign with
  | .alias name =>
    match a.anchors.lookup name with
    | some number => .ok { a with frames := complete (.alias t.mark number) a.frames }
    | none => .error (.unknownAnchor t.mark)
  | _ => a.takeBehind t place { mark := t.mark } none

/-- Takes a token into a block sequence that awaits a dash. -/
def takeDash (indented : Bool) (p : Properties) (start : Mark) (items : List Node)
    (outer : List Frame) : Except Stop Assembly :=
  match t.sign with
  | .dash =>
    .ok { a with frames := .blockItems indented p start items (some t.mark.right) :: outer }
  | .blockEnd => .ok { a with frames := complete (.sequence p items) outer }
  | _ => .error (.fault (.inside .blockSequence start .dash t.mark))

/-- Takes a token into a sequence in square brackets. -/
def takeItem (p : Properties) (start : Mark) (items : List Node) (awaited : Bool)
    (outer : List Frame) : Except Stop Assembly :=
  match t.sign, awaited with
  | .flowSequenceEnd, _ => .ok { a with frames := complete (.sequence p items) outer }
  | .key, true => .ok { a with frames := .pair { mark := t.mark } .key :: a.frames }
  | _, true => a.takeNode t .flow
  | .comma, false => .ok { a with frames := .flowItems p start items true :: outer }
  | _, false => .error (.fault (.inside .flowSequence start .commaOrBracket t.mark))

/-- Takes a token into a block mapping. -/
def takeEntry (p : Properties) (start : Mark) (entries : List (Node × Node))
    (outer : List Frame) : EntryState → Except Stop Assembly
  | .key =>
    match t.sign with
    | .key =>
      .ok { a with frames := .blockEntries p start entries (.keyContent t.mark.right) :: outer }
    | .blockEnd => .ok { a with frames := complete (.mapping p entries) outer }
    | _ => .error (.fault (.inside .blockMapping start .key t.mark))
  | .colon key =>
    .ok { a with frames := .blockEntries p start entries (.value key t.mark.right) :: outer }
  | _ => a.takeNode t .blockEntry

/-- Takes a token into a mapping in braces. -/
def takeFlowEntry (p : Properties) (start : Mark) (entries : List (Node × Node))
    (outer : List Frame) : FlowEntryState → Except Stop Assembly
  | .entry =>
    match t.sign with
    | .flowMappingEnd => .ok { a with frames := complete (.mapping p entries) outer }
    | .key => .ok { a with frames := .flowEntries p start entries .keyContent :: outer }
    | _ => a.takeNode t .flow
  | .separator =>
    match t.sign with
    | .flowMappingEnd => .ok { a with frames := complete (.mapping p entries) outer }
    | .comma => .ok { a with frames := .flowEntries p start entries .entry :: outer }
    | _ => .error (.fault (.inside .flowMapping start .commaOrBrace t.mark))
  | .colon key => .ok { a with frames := .flowEntries p start entries (.value key) :: outer }
  | _ => a.takeNode t .flow

/-- Takes a token into a pair. A pair without a key takes the token that shows it. -/
def takePair (p : Properties) (outer : List Frame) : PairState → Except Stop Assembly
  | .key =>
    if t.sign = .colon ∨ t.sign = .comma ∨ t.sign = .flowSequenceEnd then
      .ok { a with frames := .pair p (.colon (emptyAt t.mark.right)) :: outer }
    else a.takeNode t .flow
  | .colon key => .ok { a with frames := .pair p (.value key) :: outer }
  | _ => a.takeNode t .flow

/-- Takes a token into the innermost frame. -/
def take : Except Stop Assembly :=
  match a.frames with
  | [] => .ok a
  | f :: outer =>
    match f with
    | .document _ _ => a.takeNode t .block
    | .properties place p undefined =>
      { a with frames := outer }.takeBehind t place p undefined
    | .blockItems indented p start items none => a.takeDash t indented p start items outer
    | .blockItems _ _ _ _ (some _) => a.takeNode t .block
    | .flowItems p start items awaited => a.takeItem t p start items awaited outer
    | .blockEntries p start entries state => a.takeEntry t p start entries outer state
    | .flowEntries p start entries state => a.takeFlowEntry t p start entries outer state
    | .pair p state => a.takePair t p outer state

end Assembly

/-! ### Reading a document -/

/-- The first document of a text. -/
structure Document where
  /-- The tree, or `none` if the text holds nothing. -/
  root : Option Node
  /-- Why the tree breaks off, or what is wrong right behind it. -/
  stop : Option Stop := none
  /-- Whether something follows the document. -/
  more : Bool := false

namespace Document

/-- The document of a tree that is complete, with the tokens behind it. -/
def ended (root : Node) (rest : List Token) (fault : Option Fault) : Document :=
  match rest with
  | [] => { root, stop := fault.map .fault }
  | rest =>
    let next := (rest.dropWhile fun t => t.sign = .documentEnd).head?
    { root, more := next.map (·.sign) ≠ some .streamEnd }

/-- Reads tokens until the root is complete. -/
def read (fault : Option Fault) (a : Assembly) : List Token → Document
  | [] => { root := cutOff a.frames, stop := fault.map .fault }
  | t :: ts =>
    let a := { a with frames := yieldTo t none a.frames }
    match a.root? with
    | some root => ended root (t :: ts) fault
    | none =>
      match a.take t with
      | .error stop => { root := cutOff a.frames, stop }
      | .ok a =>
        match a.root? with
        | some root => ended root ts fault
        | none => read fault a ts

/-- The handles that need no directive. -/
def standardHandles : List (String × String) := [("!", "!"), ("!!", "tag:yaml.org,2002:")]

/-- Reads the directives in front of a document. -/
def readDirectives (versionSeen : Bool) (handles : List (String × String)) :
    List Token → Except Fault (List (String × String) × List Token)
  | [] => .ok (handles, [])
  | t :: ts =>
    match t.sign with
    | .directive (.version major minor) =>
      if versionSeen then .error (.found .duplicateVersion t.mark none)
      else if major = 1 ∧ (minor = 1 ∨ minor = 2) then readDirectives true handles ts
      else .error (.found .incompatibleVersion t.mark none)
    | .directive (.tag handle uri) =>
      if (handles.lookup handle).isSome then .error (.found .duplicateTagDirective t.mark none)
      else readDirectives versionSeen ((handle, uri) :: handles) ts
    | _ => .ok (handles, t :: ts)

/-- A document that breaks off before its root. -/
def broken (stop : Option Stop) : Document := { root := some .missing, stop }

/-- Reads the first document. -/
def ofTokens (all : Lexing.Tokens) : Document :=
  match all.tokens with
  | [] => broken (all.fault.map .fault)
  | t :: ts =>
    match t.sign with
    | .streamEnd => { root := none }
    | .directive _ | .documentStart =>
      match readDirectives false [] (t :: ts) with
      | .error fault => broken (some (.fault fault))
      | .ok (_, []) => broken (all.fault.map .fault)
      | .ok (handles, start :: rest) =>
        if start.sign = .documentStart then
          read all.fault { frames := [.document true none], handles := handles ++ standardHandles }
            rest
        else broken (some (.fault (.found .documentStart start.mark none)))
    | _ =>
      read all.fault { frames := [.document false none], handles := standardHandles } (t :: ts)

/-- Reads the first document of a text. -/
def ofText (text : String) : Document := ofTokens (tokens text)

end Document

end PageMend.Yaml
