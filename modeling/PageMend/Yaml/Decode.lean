import PageMend.Yaml.Document
import PageMend.Yaml.Meaning

/-!
# Reading values from a document

A decoder takes a node to a value, or says what is wrong with it, and where. Decoders go through a
document from front to back and stop at the first thing that is wrong; content in front of the
place where a text breaks off is judged all the same.
-/

namespace PageMend.Yaml

/-! ### Errors -/

/-- What a node holds, where something else was expected. -/
inductive Found where
  | null
  | boolean (b : Bool)
  | integer (i : Int)
  | floating (x : Floating)
  | text (s : String)
  | sequence
  | mapping
  deriving DecidableEq, Repr

/-- How an integer is named, by the width that it needs. -/
def integerMessage (i : Int) : String :=
  let width :=
    if Nat.pow 2 64 ≤ i.natAbs ∧ 0 ≤ i then " as u128"
    else if Nat.pow 2 63 < i.natAbs ∧ i < 0 then " as i128"
    else ""
  "integer `" ++ toString i ++ "`" ++ width

def Found.message : Found → String
  | .null => "unit value"
  | .boolean b => "boolean `" ++ (if b then "true" else "false") ++ "`"
  | .integer i => integerMessage i
  | .floating x => "floating point `" ++ x.message ++ "`"
  | .text s => "string " ++ Text.quoted s
  | .sequence => "sequence"
  | .mapping => "map"

/-- What is wrong with a node. -/
inductive Cause where
  | wrongType (found : Found) (expected : String)
  /-- A scalar whose text does not fit its tag. -/
  | wrongValue (text expected : String)
  | duplicateField (name : String)
  | missingField (name : String)
  deriving DecidableEq, Repr

def Cause.message : Cause → String
  | .wrongType found expected => "invalid type: " ++ found.message ++ ", expected " ++ expected
  | .wrongValue text expected =>
    "invalid value: string " ++ Text.quoted text ++ ", expected " ++ expected
  | .duplicateField name => "duplicate field `" ++ name ++ "`"
  | .missingField name => "missing field `" ++ name ++ "`"

/-- A step from a node to one inside it. -/
inductive Step where
  | key (name : String)
  /-- To the value of a key that is not written there. -/
  | someKey
  | item (index : Nat)
  deriving DecidableEq, Repr

/-- The way to a node, last step first. -/
abbrev Path := List Step

def Path.message : Path → String
  | [] => ""
  | step :: path =>
    let outer := Path.message path
    let dot := if path = [] then "" else "."
    match step with
    | .key name => outer ++ dot ++ name
    | .someKey => outer ++ dot ++ "?"
    | .item index => outer ++ "[" ++ toString index ++ "]"

/-- Why a node has no value. -/
inductive Refusal where
  /-- The text broke off there. -/
  | brokenOff
  | content (path : Path) (mark : Option Mark) (cause : Cause)
  deriving DecidableEq, Repr

/-! ### Single values -/

/-- Takes a node of a tree to a value. The path leads to the node. -/
abbrev Decoder (α : Type) := (root : Node) → Path → Node → Except Refusal α

/-- A node, or the one in the tree that it stands for as an alias. -/
def Node.resolve (n root : Node) : Node :=
  match n with
  | .alias _ anchor => (root.withAnchor? anchor).getD .missing
  | n => n

/-- A tag of the standard. -/
def standardTag (name : String) : String := "tag:yaml.org,2002:" ++ name

/-- What a plain scalar holds. -/
def Found.ofPlain (text : String) : Found :=
  match Meaning.ofText text with
  | .null => .null
  | .boolean b => .boolean b
  | .integer i => .integer i
  | .floating x => .floating x
  | .text => .text text

/-- Why a scalar is not what was expected. A tag of the standard says how its text is meant. -/
def unexpectedScalar (tag : Option String) (style : Style) (text expected : String) : Cause :=
  let tagged (found : Option Found) (name : String) : Cause :=
    match found with
    | some found => .wrongType found expected
    | none => .wrongValue text name
  let untagged : Cause :=
    .wrongType (if style = .plain then .ofPlain text else .text text) expected
  match tag with
  | none => untagged
  | some tag =>
    if tag = standardTag "bool" then tagged ((boolean? text).map .boolean) "a boolean"
    else if tag = standardTag "int" then tagged ((integer? text.toList).map .integer) "an integer"
    else if tag = standardTag "float" then
      tagged ((floating? text.toList).map .floating) "a float"
    else if tag = standardTag "null" then tagged (if isNull text then some .null else none) "null"
    else if tag.toList.head? = some '!' then untagged
    else .wrongType (.text text) expected

/-- The refusal of a node that is not what was expected. -/
def unexpected (expected : String) (path : Path) : Node → Refusal
  | .scalar p style text =>
    .content path (some p.mark) (unexpectedScalar p.tag style text expected)
  | .sequence p _ => .content path (some p.mark) (.wrongType .sequence expected)
  | .mapping p _ => .content path (some p.mark) (.wrongType .mapping expected)
  | .alias _ _ | .missing => .brokenOff

/-- The text of a scalar, whatever its style and its tag. -/
def Decoder.string : Decoder String := fun root path n =>
  match n.resolve root with
  | .scalar _ _ text => .ok text
  | n => .error (unexpected "a string" path n)

/-- Whether a scalar may be a truth value: it is plain, or a literal block that is tagged so. -/
def mayBeBoolean (p : Properties) (style : Style) : Bool :=
  style = .plain || (style = .literal && p.tag = some (standardTag "bool"))

def Decoder.bool : Decoder Bool := fun root path n =>
  match n.resolve root with
  | .scalar p style text =>
    match (if mayBeBoolean p style then boolean? text else none) with
    | some b => .ok b
    | none => .error (unexpected "a boolean" path (.scalar p style text))
  | n => .error (unexpected "a boolean" path n)

/-! ### Lists -/

/-- Decodes items, the first of which has a number. -/
def Decoder.items {α : Type} (item : Decoder α) (root : Node) (path : Path) (index : Nat) :
    List Node → Except Refusal (List α)
  | [] => .ok []
  | n :: ns => do
    let a ← item root (.item index :: path) n
    return a :: (← items item root path (index + 1) ns)

/-- A sequence. An empty plain scalar is an empty list. -/
def Decoder.list {α : Type} (item : Decoder α) : Decoder (List α) := fun root path n =>
  match n.resolve root with
  | .sequence _ nodes => item.items root path 0 nodes
  | .scalar _ .plain "" => .ok []
  | n => .error (unexpected "a sequence" path n)

/-! ### Records -/

/-- A field of a record: what its value changes in the record. -/
structure Field (α : Type) where
  name : String
  required : Bool
  decode : Decoder (α → α)

/-- The field of a name, by the decoder of its value. -/
def Field.optional {α β : Type} (name : String) (decode : Decoder β) (set : β → α → α) :
    Field α where
  name
  required := false
  decode := fun root path n => (decode root path n).map set

/-- A field without a default. -/
def Field.mandatory {α β : Type} (name : String) (decode : Decoder β) (set : β → α → α) :
    Field α :=
  { Field.optional name decode set with required := true }

/-- A record: its name, its fields, and its value before any field is set. -/
structure Shape (α : Type) where
  name : String
  fields : List (Field α)
  initial : α

variable {α : Type}

/-- The step to the value of a key. -/
def stepTo : Node → Step
  | .scalar _ _ name => .key name
  | _ => .someKey

/-- Decodes the entries of a mapping that begins at `mark`. Keys that name no field are passed
over. Answers with the names that were there. -/
def Shape.entries (shape : Shape α) (root : Node) (path : Path) (mark : Mark)
    (seen : List String) (value : α) :
    List (Node × Node) → Except Refusal (List String × α)
  | [] => .ok (seen, value)
  | (key, node) :: entries =>
    match key.resolve root with
    | .scalar _ _ name =>
      match shape.fields.find? (·.name = name) with
      | none =>
        if node.isWhole then shape.entries root path mark seen value entries
        else .error .brokenOff
      | some field =>
        if seen.contains name then .error (.content path (some mark) (.duplicateField name))
        else do
          let change ← field.decode root (stepTo key :: path) node
          shape.entries root path mark (name :: seen) (change value) entries
    | key => .error (unexpected "field identifier" path key)

/-- The record, if no field is missing. -/
def Shape.finish (shape : Shape α) (path : Path) (mark : Option Mark) (seen : List String)
    (value : α) : Except Refusal α :=
  match shape.fields.find? fun f => f.required && !seen.contains f.name with
  | some f => .error (.content path mark (.missingField f.name))
  | none => .ok value

/-- A record is written as a mapping. An empty plain scalar is an empty mapping. -/
def Decoder.record (shape : Shape α) : Decoder α := fun root path n =>
  match n.resolve root with
  | .mapping p entries => do
    let (seen, value) ← shape.entries root path p.mark [] shape.initial entries
    shape.finish path (some p.mark) seen value
  | .scalar p .plain "" => shape.finish path (some p.mark) [] shape.initial
  | n => .error (unexpected ("struct " ++ shape.name) path n)

/-! ### Whole texts -/

/-- Why a text has no value. -/
inductive ReadError where
  /-- The text breaks off. -/
  | stop (reason : Option Stop)
  | content (path : Path) (mark : Option Mark) (cause : Cause)
  | moreDocuments
  deriving DecidableEq, Repr

/-- A path in front of a message. -/
def Path.lead (path : Path) : String := if path = [] then "" else path.message ++ ": "

def ReadError.message : ReadError → String
  | .stop none => "EOF while parsing a value"
  | .stop (some (.fault f)) => f.message
  | .stop (some (.unknownAnchor mark)) => "unknown anchor" ++ mark.suffix
  | .content path mark cause =>
    path.lead ++ cause.message ++ (mark.map Mark.suffix).getD ""
  | .moreDocuments => "deserializing from YAML containing more than one document is not supported"

def Refusal.toReadError (stop : Option Stop) : Refusal → ReadError
  | .brokenOff => .stop stop
  | .content path mark cause => .content path mark cause

/-- The record that a document holds. A text that holds nothing is an empty mapping. -/
def Shape.ofDocument (shape : Shape α) (d : Document) : Except ReadError α := do
  let value ←
    (match d.root with
      | none => shape.finish [] none [] shape.initial
      | some root => Decoder.record shape root [] root).mapError (Refusal.toReadError d.stop)
  match d.stop with
  | some reason => .error (.stop (some reason))
  | none => if d.more then .error .moreDocuments else return value

/-- The record that a text holds. -/
def Shape.read (shape : Shape α) (text : String) : Except ReadError α :=
  shape.ofDocument (.ofText text)

end PageMend.Yaml
