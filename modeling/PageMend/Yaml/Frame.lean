import PageMend.Yaml.Node

/-!
# Unfinished nodes

While tokens are read, the collections that have begun and not ended form a stack of frames. A
frame holds what the collection has so far and knows what it waits for. A token acts in two steps.
First it closes what it cannot belong to (`yieldTo`): a missing value becomes an empty one, and
sequences and pairs without an end of their own are completed. Then the innermost frame takes it.
-/

namespace PageMend.Yaml

/-- What the entry of a block mapping waits for. -/
inductive EntryState where
  | key
  /-- Content, behind a key indicator that ends at a place. -/
  | keyContent (behind : Mark)
  | colon (key : Node)
  /-- Content, behind a colon that ends at a place. -/
  | value (key : Node) (behind : Mark)

/-- What the entry of a mapping in braces waits for. -/
inductive FlowEntryState where
  | entry
  | separator
  | keyContent
  | colon (key : Node)
  | value (key : Node)
  /-- Nothing: the key has no value. -/
  | noValue (key : Node)

/-- What a pair that stands as an item in square brackets waits for. -/
inductive PairState where
  | key
  | colon (key : Node)
  | value (key : Node)
  | done (key value : Node)

/-- The kinds of content that may stand at a place. -/
inductive ContentPlace where
  | block
  /-- The entry of a block mapping, where a sequence need not be indented. -/
  | blockEntry
  | flow
  deriving DecidableEq, Repr

/-- An unfinished node. `start` is the place of the token that opened it. -/
inductive Frame where
  /-- A document, which is explicit if a line of dashes opened it, and its root. -/
  | document (explicit : Bool) (root : Option Node)
  /-- A node of which only the properties are known. A tag with an undefined handle is remembered
  by its place, and refused when the properties are complete. -/
  | properties (place : ContentPlace) (p : Properties) (undefined : Option Mark)
  /-- A block sequence, and the end of the dash behind which content is awaited. -/
  | blockItems (indented : Bool) (p : Properties) (start : Mark) (items : List Node)
    (behind : Option Mark)
  /-- A sequence in square brackets, and whether an item may follow. -/
  | flowItems (p : Properties) (start : Mark) (items : List Node) (awaited : Bool)
  | blockEntries (p : Properties) (start : Mark) (entries : List (Node × Node)) (state : EntryState)
  | flowEntries (p : Properties) (start : Mark) (entries : List (Node × Node))
    (state : FlowEntryState)
  | pair (p : Properties) (state : PairState)

/-- An empty scalar at a place. -/
def emptyAt (mark : Mark) : Node := .empty { mark }

/-! ### Content arrives -/

/-- The frame with the content that it waited for. -/
def Frame.plug (n : Node) : Frame → Frame
  | .document explicit _ => .document explicit (some n)
  | .blockItems indented p start items _ => .blockItems indented p start (items ++ [n]) none
  | .flowItems p start items _ => .flowItems p start (items ++ [n]) false
  | .blockEntries p start entries (.value key _) =>
    .blockEntries p start (entries ++ [(key, n)]) .key
  | .blockEntries p start entries _ => .blockEntries p start entries (.colon n)
  | .flowEntries p start entries (.value key) =>
    .flowEntries p start (entries ++ [(key, n)]) .separator
  | .flowEntries p start entries .keyContent => .flowEntries p start entries (.colon n)
  | .flowEntries p start entries _ => .flowEntries p start entries (.noValue n)
  | .pair p (.value key) => .pair p (.done key n)
  | .pair p _ => .pair p (.colon n)
  | .properties place p undefined => .properties place p undefined

/-- A node is complete: the innermost frame waited for it. -/
def complete (n : Node) : List Frame → List Frame
  | [] => []
  | f :: frames => f.plug n :: frames

/-! ### What a token leaves empty -/

/-- The tokens that end the content of an entry in a block mapping. -/
def Sign.endsEntryContent : Sign → Bool
  | .key | .colon | .blockEnd => true
  | _ => false

/-- The tokens that end the content of an item in a block sequence. -/
def Sign.endsItemContent (indented : Bool) : Sign → Bool
  | .dash | .blockEnd => true
  | .key | .colon => !indented
  | _ => false

/-- The tokens that leave a document empty behind its line of dashes. -/
def Sign.endsDocument : Sign → Bool
  | .directive _ | .documentStart | .documentEnd | .streamEnd => true
  | _ => false

/-- The frame with empty scalars where a token shows that nothing was written. -/
def Frame.settle (t : Token) : Frame → Frame
  | .document true none =>
    .document true (if t.sign.endsDocument then some (emptyAt t.mark) else none)
  | .blockItems indented p start items (some behind) =>
    if t.sign.endsItemContent indented then
      .blockItems indented p start (items ++ [emptyAt behind]) none
    else .blockItems indented p start items (some behind)
  | .blockEntries p start entries state =>
    let withoutColon (key : Node) : Frame :=
      if t.sign = .colon then .blockEntries p start entries (.colon key)
      else .blockEntries p start (entries ++ [(key, emptyAt t.mark)]) .key
    match state with
    | .key => .blockEntries p start entries .key
    | .keyContent behind =>
      if t.sign.endsEntryContent then withoutColon (emptyAt behind)
      else .blockEntries p start entries (.keyContent behind)
    | .colon key => withoutColon key
    | .value key behind =>
      if t.sign.endsEntryContent then
        .blockEntries p start (entries ++ [(key, emptyAt behind)]) .key
      else .blockEntries p start entries (.value key behind)
  | .flowEntries p start entries state =>
    let keyAlone (key : Node) : Frame :=
      .flowEntries p start (entries ++ [(key, emptyAt t.mark)]) .separator
    let withoutColon (key : Node) : Frame :=
      if t.sign = .colon then .flowEntries p start entries (.colon key) else keyAlone key
    match state with
    | .keyContent =>
      if t.sign = .colon ∨ t.sign = .comma ∨ t.sign = .flowMappingEnd then
        withoutColon (emptyAt t.mark)
      else .flowEntries p start entries .keyContent
    | .colon key => withoutColon key
    | .value key =>
      if t.sign = .comma ∨ t.sign = .flowMappingEnd then keyAlone key
      else .flowEntries p start entries (.value key)
    | .noValue key => keyAlone key
    | state => .flowEntries p start entries state
  | .pair p (.colon key) =>
    if t.sign = .colon then .pair p (.colon key) else .pair p (.done key (emptyAt t.mark))
  | .pair p (.value key) =>
    if t.sign = .comma ∨ t.sign = .flowSequenceEnd then .pair p (.done key (emptyAt t.mark))
    else .pair p (.value key)
  | f => f

/-- Whether a token goes on with a node of which the properties are known. -/
def Properties.goOn (place : ContentPlace) (p : Properties) : Sign → Bool
  | .anchor _ => p.anchor.isNone
  | .tag _ _ => p.tag.isNone
  | .scalar _ _ | .flowSequence | .flowMapping => true
  | .blockSequence | .blockMapping => place ≠ .flow
  | .dash => place = .blockEntry
  | _ => false

/-- The node of a frame that ends where a token comes that does not belong to it. -/
def Frame.finished? (t : Token) : Frame → Option Node
  | .properties place p none => if p.goOn place t.sign then none else some (.empty p)
  | .blockItems false p _ items none => if t.sign = .dash then none else some (.sequence p items)
  | .pair p (.done key value) => some (.mapping p [(key, value)])
  | _ => none

/-- The frames that are left when a token comes. `done` is a node that ended in front of it. -/
def yieldTo (t : Token) (done : Option Node) : List Frame → List Frame
  | [] => []
  | f :: frames =>
    let f := match done with
      | some n => f.plug n
      | none => f
    let f := f.settle t
    match f.finished? t with
    | some n => yieldTo t (some n) frames
    | none => f :: frames

/-! ### A text that breaks off -/

/-- The node of a frame, with `n` as the last thing inside it. -/
def Frame.cut (n : Node) : Frame → Node
  | .document _ root => root.getD n
  | .properties _ _ _ => n
  | .blockItems _ p _ items _ | .flowItems p _ items _ => .sequence p (items ++ [n])
  | .blockEntries p _ entries (.colon key) | .blockEntries p _ entries (.value key _)
  | .flowEntries p _ entries (.colon key) | .flowEntries p _ entries (.value key)
  | .flowEntries p _ entries (.noValue key) => .mapping p (entries ++ [(key, n)])
  | .blockEntries p _ entries _ | .flowEntries p _ entries _ =>
    .mapping p (entries ++ [(n, .missing)])
  | .pair p .key => .mapping p [(n, .missing)]
  | .pair p (.colon key) | .pair p (.value key) => .mapping p [(key, n)]
  | .pair p (.done key value) => .mapping p [(key, value), (.missing, .missing)]

/-- The tree of a text that breaks off inside some frames. -/
def cutOff (frames : List Frame) : Node := frames.foldl (fun n f => f.cut n) .missing

end PageMend.Yaml
