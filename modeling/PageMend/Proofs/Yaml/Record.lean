import PageMend.Proofs.Yaml.Assembly
import PageMend.Proofs.Yaml.Lines
import PageMend.Yaml.Decode

/-!
# Records are read back

A node decodes to a value if its decoder says so in whatever tree and at whatever path. The decoders
go along with what their nodes consist of, so that a record whose entries are written line by line
is read back from the values of its fields (`Shape.read_lines`).
-/

namespace PageMend.Yaml

variable {α β : Type} {p : Properties} {n : Node} {place : ContentPlace}

/-- A node decodes to a value. -/
def Decodes (decode : Decoder α) (v : α) (n : Node) : Prop :=
  ∀ (root : Node) (path : Path), decode root path n = .ok v

/-! ## Single values and lists -/

theorem reads_string (place : ContentPlace) (style : Style) (text : String) :
    Reads place [.scalar style text] (Decodes .string text) :=
  (reads_scalar place style text).mono fun _ ⟨_, hn⟩ => hn ▸ fun _ _ => rfl

theorem reads_bool (place : ContentPlace) (b : Bool) :
    Reads place [.scalar .plain (if b then "true" else "false")] (Decodes .bool b) := by
  refine (reads_scalar place .plain _).mono ?_
  rintro _ ⟨p, rfl⟩ root path
  cases b <;> rfl

theorem items_eq {item : Decoder α} {vs : List α} {nodes : List Node}
    (h : List.Forall₂ (Decodes item) vs nodes) (root : Node) (path : Path) (index : Nat) :
    item.items root path index nodes = .ok vs := by
  induction h generalizing index with
  | nil => rfl
  | cons h _ ih =>
    rw [Decoder.items, h root, ih]
    rfl

/-- An empty list, as it is written. -/
theorem reads_nil (place : ContentPlace) (item : Decoder α) :
    Reads place [.flowSequence, .flowSequenceEnd] (Decodes (.list item) []) :=
  (reads_emptyList place).mono fun _ ⟨_, hn⟩ => hn ▸ fun _ _ => rfl

/-- A list of which each item is read back. -/
theorem reads_list {item : Decoder α} {vs : List α} {signs : α → List Sign} (hne : vs ≠ [])
    (h : ∀ v ∈ vs, Reads .block (signs v) (Decodes item v)) :
    Reads .blockEntry (vs.flatMap fun v => .dash :: signs v) (Decodes (.list item) vs) := by
  have hspelled : ∀ s ∈ vs.map fun v => ((signs v, Decodes item v) : Spelling),
      Reads .block s.1 s.2 := by
    intro s hs
    obtain ⟨v, hv, rfl⟩ := List.mem_map.1 hs
    exact h v hv
  have hreads := reads_sequence (by simpa using hne) hspelled
  rw [List.flatMap_map] at hreads
  refine hreads.mono ?_
  rintro _ ⟨p, nodes, rfl, hnodes⟩ root path
  rw [List.forall₂_map_left_iff] at hnodes
  exact items_eq hnodes root path 0

/-! ## Records -/

/-- A field as it is written: its name, the signs of its value, and what this changes. -/
structure Assignment (α : Type) where
  name : String
  signs : List Sign
  change : α → α

/-- The assignment of a value to a field, by the function that sets the field. -/
def Assignment.of (name : String) (signs : List Sign) (v : β) (set : β → α → α) :
    Assignment α where
  name
  signs
  change := set v

/-- The signs of a key and its value. -/
def Assignment.entrySigns (s : Assignment α) : List Sign :=
  .key :: .scalar .plain s.name :: .colon :: s.signs

/-- The assignment is one of the fields of a record, and is read back. -/
def Shape.Takes (shape : Shape α) (s : Assignment α) : Prop :=
  ∃ field, shape.fields.find? (·.name = s.name) = some field ∧
    Reads .blockEntry s.signs (Decodes field.decode s.change)

/-- A key and a value that make an assignment. -/
def Shape.Shows (shape : Shape α) (s : Assignment α) (node : Node × Node) : Prop :=
  (∃ p : Properties, node.1 = .scalar p .plain s.name) ∧
    ∃ field, shape.fields.find? (·.name = s.name) = some field ∧
      Decodes field.decode s.change node.2

/-- The value that some assignments make. -/
def Shape.assemble (shape : Shape α) (assignments : List (Assignment α)) : α :=
  assignments.foldl (fun v s => s.change v) shape.initial

variable {shape : Shape α} {assignments : List (Assignment α)}

/-- A field is read back if its value is. -/
theorem Shape.takes_of {name : String} {signs : List Sign} {decode : Decoder β}
    {set : β → α → α} {v : β} {field : Field α}
    (hfind : shape.fields.find? (·.name = name) = some field)
    (hfield : field.decode = (Field.optional name decode set).decode)
    (hreads : Reads .blockEntry signs (Decodes decode v)) :
    shape.Takes (.of name signs v set) := by
  refine ⟨field, hfind, hreads.mono fun n hn root path => ?_⟩
  rw [hfield, Field.optional]
  simp only [hn root path]
  rfl

theorem Shape.entries_eq {nodes : List (Node × Node)}
    (h : List.Forall₂ shape.Shows assignments nodes)
    (hnodup : (assignments.map Assignment.name).Nodup) (root : Node) (path : Path) (mark : Mark)
    {seen : List String} (hseen : ∀ s ∈ assignments, s.name ∉ seen) (value : α) :
    shape.entries root path mark seen value nodes =
      .ok ((assignments.map Assignment.name).reverse ++ seen,
        assignments.foldl (fun v s => s.change v) value) := by
  induction h generalizing seen value with
  | nil => rfl
  | @cons s node assignments nodes hs _ ih =>
    obtain ⟨⟨p, hkey⟩, field, hfield, hdecode⟩ := hs
    obtain ⟨key, node⟩ := node
    obtain rfl : key = .scalar p .plain s.name := hkey
    obtain ⟨hname, hnodup⟩ := List.nodup_cons.1 hnodup
    obtain ⟨hnew, hseen⟩ := List.forall_mem_cons.1 hseen
    have hlater : ∀ s' ∈ assignments, s'.name ∉ s.name :: seen := by
      intro s' hs' hmem
      rcases List.mem_cons.1 hmem with heq | hmem
      · exact hname (heq ▸ List.mem_map_of_mem hs')
      · exact hseen s' hs' hmem
    rw [Shape.entries]
    simp only [Node.resolve, hfield, List.contains_iff_mem, hnew, if_false]
    rw [hdecode]
    simp only [bind, Except.bind]
    rw [ih hnodup hlater]
    simp

/-- A mapping with the fields of a record, none of them twice and none missing, decodes to it. -/
theorem decodes_record {nodes : List (Node × Node)}
    (h : List.Forall₂ shape.Shows assignments nodes)
    (hnodup : (assignments.map Assignment.name).Nodup)
    (hrequired : ∀ f ∈ shape.fields, f.required = true →
      f.name ∈ assignments.map Assignment.name) :
    Decodes (.record shape) (shape.assemble assignments) (.mapping p nodes) := by
  intro root path
  have hentries := Shape.entries_eq h hnodup root path p.mark (fun _ _ => List.not_mem_nil)
    shape.initial
  have hfinish : ∀ value, shape.finish path (some p.mark)
      ((assignments.map Assignment.name).reverse ++ []) value = .ok value := by
    intro value
    have hmissing : (shape.fields.find? fun f => f.required && !(List.contains
        ((assignments.map Assignment.name).reverse ++ []) f.name)) = none := by
      refine List.find?_eq_none.2 fun f hf => ?_
      have hname := hrequired f hf
      simpa using hname
    rw [Shape.finish, hmissing]
  simp only [Decoder.record, Node.resolve, hentries, bind, Except.bind, hfinish]
  rfl

/-- An assignment as an entry of a mapping. -/
def Shape.entryOf (shape : Shape α) (s : Assignment α) : Entry where
  name := s.name
  value := (s.signs, fun n => ∃ field, shape.fields.find? (·.name = s.name) = some field ∧
    Decodes field.decode s.change n)

theorem Shape.reads_entries (h : ∀ s ∈ assignments, shape.Takes s) :
    ∀ e ∈ assignments.map shape.entryOf, Reads .blockEntry e.value.1 e.value.2 := by
  intro e he
  obtain ⟨s, hs, rfl⟩ := List.mem_map.1 he
  obtain ⟨field, hfield, hreads⟩ := h s hs
  exact hreads.mono fun n hn => ⟨field, hfield, hn⟩

theorem Shape.signs_entries :
    (assignments.map shape.entryOf).flatMap Entry.signs =
      assignments.flatMap Assignment.entrySigns := by
  rw [List.flatMap_map]
  rfl

/-- A record is read back if each field is. -/
theorem reads_record (hplace : place ≠ .flow) (h : ∀ s ∈ assignments, shape.Takes s)
    (hnodup : (assignments.map Assignment.name).Nodup)
    (hrequired : ∀ f ∈ shape.fields, f.required = true →
      f.name ∈ assignments.map Assignment.name) :
    Reads place (.blockMapping :: assignments.flatMap Assignment.entrySigns ++ [.blockEnd])
      (Decodes (.record shape) (shape.assemble assignments)) := by
  have hreads := reads_mapping place hplace (Shape.reads_entries h)
  rw [Shape.signs_entries] at hreads
  refine hreads.mono ?_
  rintro _ ⟨p, nodes, rfl, hnodes⟩
  rw [List.forall₂_map_left_iff] at hnodes
  exact decodes_record hnodes hnodup hrequired

/-- A record that is written line by line is read back. -/
theorem Shape.read_lines {lines : List Line} (hlines : AreSound lines)
    (hsigns : signsOfLines [] lines =
      .blockMapping :: assignments.flatMap Assignment.entrySigns ++ [.blockEnd, .streamEnd])
    (h : ∀ s ∈ assignments, shape.Takes s) (hnodup : (assignments.map Assignment.name).Nodup)
    (hrequired : ∀ f ∈ shape.fields, f.required = true →
      f.name ∈ assignments.map Assignment.name) :
    shape.read (String.ofList (textOfLines lines)) = .ok (shape.assemble assignments) := by
  obtain ⟨hfault, htokens⟩ := tokens_textOfLines hlines
  rw [hsigns, ← Shape.signs_entries] at htokens
  obtain ⟨p, nodes, hnodes, hdocument⟩ := ofTokens_mapping (Shape.reads_entries h) hfault htokens
  rw [List.forall₂_map_left_iff] at hnodes
  have hdecodes : Decodes (.record shape) _ (.mapping p nodes) :=
    decodes_record hnodes hnodup hrequired
  rw [Shape.read, Document.ofText, hdocument, Shape.ofDocument]
  simp only [hdecodes (.mapping p nodes) []]
  rfl

end PageMend.Yaml
