import PageMend.Config.Load
import PageMend.Config.Written
import PageMend.Proofs.Storage.Write
import PageMend.Proofs.Yaml.Entries
import PageMend.Proofs.Yaml.Record

/-!
# A configuration is read back

A configuration is written as lines whose tokens are those of its record: each part is one of its
fields, in order. So every configuration is read back from its text (`Config.read_toYaml`), and one
that is fit to run is loaded from the file it was written to (`Config.load_of_write`).
-/

namespace PageMend

open Yaml Storage

/-! ## Lines -/

def RuleEntry.lines (rule : RuleEntry) : List Line :=
  [.entry 2 true "name" rule.name, .flag 4 "enabled" rule.enabled]

/-- The lines of the rules of a pipeline. -/
def ruleLines (rules : List RuleEntry) : List Line :=
  if rules = [] then [.emptyList 2 "rules"]
  else .heading 2 "rules" :: rules.flatMap RuleEntry.lines

def Config.lines (config : Config) : List Line :=
  .entry 0 false "extension" config.extension ::
    .heading 0 "title_suffix" ::
    .entry 2 false "marker" config.titleSuffix.marker ::
    .entry 2 false "heading_tag" config.titleSuffix.headingTag ::
    .entry 2 false "heading_class" config.titleSuffix.headingClass ::
    .heading 0 "import_statement" ::
    .entry 2 false "marker" config.importStatement.marker ::
    .heading 0 "pipeline" ::
    (ruleLines config.pipeline ++
      [.flag 0 "progress" config.progress, .flag 0 "dry_run" config.dryRun])

theorem RuleEntry.toList_toYaml (rule : RuleEntry) :
    rule.toYaml.toList = textOfLines rule.lines := by
  simp [toYaml, lines, textOfLines, Line.toList_item, Line.toList_flag]

theorem toList_rulesToYaml (rules : List RuleEntry) :
    (rulesToYaml rules).toList = textOfLines (ruleLines rules) := by
  cases rules with
  | nil => rfl
  | cons rule rules =>
    have hrule : ∀ rule : RuleEntry, rule.toYaml.toList = rule.lines.flatMap Line.chars :=
      RuleEntry.toList_toYaml
    simp [rulesToYaml, ruleLines, textOfLines, Line.toList_heading, String.toList_join,
      List.flatMap_map, List.flatMap_assoc, hrule]

theorem Config.toYaml_eq (config : Config) :
    config.toYaml = String.ofList (textOfLines config.lines) := by
  have hrules : (rulesToYaml config.pipeline).toList =
      (ruleLines config.pipeline).flatMap Line.chars := toList_rulesToYaml config.pipeline
  rw [← String.ofList_toList (s := config.toYaml)]
  simp [toYaml, lines, textOfLines, hrules, Line.toList_entry, Line.toList_heading,
    Line.toList_flag]

/-! ## The lines are sound -/

/-- The names of all fields. -/
def fieldNames : List String :=
  ["extension", "title_suffix", "marker", "heading_tag", "heading_class", "import_statement",
    "pipeline", "rules", "name", "enabled", "progress", "dry_run"]

theorem isName_of_mem {name : String} (h : name ∈ fieldNames) : IsName name.toList := by
  have hall : ∀ name ∈ fieldNames, Written.canBePlain name.toList = true ∧ name.toList ≠ [] ∧
      name.toList.head? ≠ some '-' ∧ name.toList.head? ≠ some '.' ∧
      (Mark.over {} name.toList).index ≤ maxKeyLength := by
    decide
  obtain ⟨hplain, hne, hdash, hpoint, hshort⟩ := hall name h
  exact ⟨hplain, hne, fun c hc => ⟨fun he => hdash (he ▸ hc), fun he => hpoint (he ▸ hc)⟩, hshort⟩

theorem areSound_rules {rules : List RuleEntry} {tail : List Line} (htail : AreSound tail)
    (hcolumn : columnOf tail ≤ 2) : AreSound (rules.flatMap RuleEntry.lines ++ tail) := by
  induction rules with
  | nil => exact htail
  | cons rule rules ih =>
    have hnext : columnOf (rules.flatMap RuleEntry.lines ++ tail) ≤ 2 := by
      cases rules with
      | nil => exact hcolumn
      | cons rule rules => exact Nat.le_refl 2
    exact ⟨Line.sound_entry (isName_of_mem (by simp [fieldNames])) true rule.name,
      .inl (Nat.le_refl 4), Line.sound_flag (isName_of_mem (by simp [fieldNames])) rule.enabled,
      .inl (Nat.le_trans hnext (show 2 ≤ 4 by decide)), ih⟩

theorem areSound_ruleLines {rules : List RuleEntry} {tail : List Line} (htail : AreSound tail)
    (hcolumn : columnOf tail ≤ 2) : AreSound (ruleLines rules ++ tail) := by
  rw [ruleLines]
  split
  · exact ⟨Line.sound_emptyList (isName_of_mem (by simp [fieldNames])), .inl hcolumn, htail⟩
  · exact ⟨Line.sound_heading (isName_of_mem (by simp [fieldNames])), .inr rfl,
      areSound_rules htail hcolumn⟩

theorem Config.areSound_lines (config : Config) : AreSound config.lines := by
  have htail : AreSound [.flag 0 "progress" config.progress, .flag 0 "dry_run" config.dryRun] :=
    ⟨Line.sound_flag (isName_of_mem (by simp [fieldNames])) _, .inl (Nat.le_refl 0),
      Line.sound_flag (isName_of_mem (by simp [fieldNames])) _, .inl (Nat.le_refl 0), trivial⟩
  exact ⟨Line.sound_entry (isName_of_mem (by simp [fieldNames])) false _, .inl (Nat.le_refl 0),
    Line.sound_heading (isName_of_mem (by simp [fieldNames])), .inr rfl,
    Line.sound_entry (isName_of_mem (by simp [fieldNames])) false _, .inl (Nat.le_refl 2),
    Line.sound_entry (isName_of_mem (by simp [fieldNames])) false _, .inl (Nat.le_refl 2),
    Line.sound_entry (isName_of_mem (by simp [fieldNames])) false _, .inl (Nat.zero_le 2),
    Line.sound_heading (isName_of_mem (by simp [fieldNames])), .inr rfl,
    Line.sound_entry (isName_of_mem (by simp [fieldNames])) false _, .inl (Nat.zero_le 2),
    Line.sound_heading (isName_of_mem (by simp [fieldNames])), .inr rfl,
    areSound_ruleLines htail (Nat.zero_le 2)⟩

/-! ## The fields and their signs -/

/-- An assignment of a string. -/
def ofString {α : Type} (name value : String) (set : String → α → α) : Assignment α :=
  .of name [.scalar (Written.styleOf value) value] value set

/-- An assignment of a truth value. -/
def ofBool {α : Type} (name : String) (value : Bool) (set : Bool → α → α) : Assignment α :=
  .of name [.scalar .plain (if value then "true" else "false")] value set

/-- The signs of a record. -/
def recordSigns {α : Type} (assignments : List (Assignment α)) : List Sign :=
  .blockMapping :: assignments.flatMap Assignment.entrySigns ++ [.blockEnd]

/-- An assignment of a record. -/
def ofRecord {α β : Type} (name : String) (assignments : List (Assignment β)) (value : β)
    (set : β → α → α) : Assignment α :=
  .of name (recordSigns assignments) value set

def RuleEntry.assignments (rule : RuleEntry) : List (Assignment RuleEntry) :=
  [ofString "name" rule.name fun v c => { c with name := v },
    ofBool "enabled" rule.enabled fun v c => { c with enabled := v }]

/-- The rules of a pipeline. -/
def ofRules (rules : List RuleEntry) : List (Assignment (List RuleEntry)) :=
  [.of "rules"
    (if rules = [] then [.flowSequence, .flowSequenceEnd]
      else rules.flatMap fun rule => .dash :: recordSigns rule.assignments)
    rules fun v _ => v]

def TitleSuffix.assignments (t : TitleSuffix) : List (Assignment TitleSuffix) :=
  [ofString "marker" t.marker fun v c => { c with marker := v },
    ofString "heading_tag" t.headingTag fun v c => { c with headingTag := v },
    ofString "heading_class" t.headingClass fun v c => { c with headingClass := v }]

def ImportStatement.assignments (i : ImportStatement) : List (Assignment ImportStatement) :=
  [ofString "marker" i.marker fun v c => { c with marker := v }]

def Config.assignments (config : Config) : List (Assignment Config) :=
  [ofString "extension" config.extension fun v c => { c with extension := v },
    ofRecord "title_suffix" config.titleSuffix.assignments config.titleSuffix fun v c =>
      { c with titleSuffix := v },
    ofRecord "import_statement" config.importStatement.assignments config.importStatement
      fun v c => { c with importStatement := v },
    ofRecord "pipeline" (ofRules config.pipeline) config.pipeline fun v c =>
      { c with pipeline := v },
    ofBool "progress" config.progress fun v c => { c with progress := v },
    ofBool "dry_run" config.dryRun fun v c => { c with dryRun := v }]

theorem signs_rules {rules : List RuleEntry} {tail : List Line} (htail : columnOf tail < 4) :
    signsOfLines [2, 0] (rules.flatMap RuleEntry.lines ++ tail) =
      (rules.flatMap fun rule => .dash :: recordSigns rule.assignments) ++
        signsOfLines [2, 0] tail := by
  induction rules with
  | nil => rfl
  | cons rule rules ih =>
    have hnext : columnOf (rules.flatMap RuleEntry.lines ++ tail) < 4 := by
      cases rules with
      | nil => exact htail
      | cons rule rules => exact (by decide : 2 < 4)
    have hitem : (Line.entry 2 true "name" rule.name).signs [2, 0] =
        [.dash, .blockMapping, .key, .scalar .plain "name", .colon,
          .scalar (Written.styleOf rule.name) rule.name] := Line.signs_item
    have hflag : (Line.flag 4 "enabled" rule.enabled).signs [4, 2, 0] =
        [.key, .scalar .plain "enabled", .colon,
          .scalar .plain (if rule.enabled then "true" else "false")] := Line.signs_flag
    have hlines : signsOfLines [2, 0] ((rule :: rules).flatMap RuleEntry.lines ++ tail) =
        (Line.entry 2 true "name" rule.name).signs [2, 0] ++
          ((Line.flag 4 "enabled" rule.enabled).signs [4, 2, 0] ++
            signsOfLines [4, 2, 0] (rules.flatMap RuleEntry.lines ++ tail)) := rfl
    rw [hlines, hitem, hflag, signsOfLines_outer hnext, ih]
    simp [recordSigns, RuleEntry.assignments, ofString, ofBool, Assignment.of,
      Assignment.entrySigns]

theorem signs_ruleLines {rules : List RuleEntry} {tail : List Line} (htail : columnOf tail < 2) :
    signsOfLines [0] (ruleLines rules ++ tail) =
      recordSigns (ofRules rules) ++ signsOfLines [0] tail := by
  have hsigns : ∀ rest, signsOfLines [0] (.heading 2 "rules" :: rest) =
      [.blockMapping, .key, .scalar .plain "rules", .colon] ++ signsOfLines [2, 0] rest := by
    intro rest
    rw [signsOfLines, Line.signs_heading]
    rfl
  by_cases hrules : rules = []
  · have hempty : (Line.emptyList 2 "rules").signs [0] = [.blockMapping, .key,
        .scalar .plain "rules", .colon, .flowSequence, .flowSequenceEnd] := Line.signs_emptyList
    have hlines : signsOfLines [0] (ruleLines rules ++ tail) =
        (Line.emptyList 2 "rules").signs [0] ++ signsOfLines [2, 0] tail := by
      rw [ruleLines, if_pos hrules]
      rfl
    rw [hlines, hempty, signsOfLines_outer htail]
    simp [recordSigns, ofRules, Assignment.of, Assignment.entrySigns, hrules]
  · rw [ruleLines, if_neg hrules, List.cons_append, hsigns,
      signs_rules (Nat.lt_trans htail (by decide)), signsOfLines_outer htail]
    simp [recordSigns, ofRules, Assignment.of, Assignment.entrySigns, hrules]

theorem Config.signs_lines (config : Config) :
    signsOfLines [] config.lines =
      .blockMapping :: config.assignments.flatMap Assignment.entrySigns ++
        [.blockEnd, .streamEnd] := by
  have hrules : signsOfLines [0] (ruleLines config.pipeline ++
      [.flag 0 "progress" config.progress, .flag 0 "dry_run" config.dryRun]) = _ :=
    signs_ruleLines Nat.zero_lt_two
  simp only [lines, signsOfLines, Line.signs_entry, Line.signs_heading, Line.signs_flag,
    Line.behind_entry, Line.behind_heading, Line.behind_flag] at hrules ⊢
  simp [Lexing.arrive, Lexing.ends, Lexing.within, Lexing.entered, Lexing.opening, hrules,
    assignments, TitleSuffix.assignments, ImportStatement.assignments, ofString, ofBool, ofRecord,
    recordSigns, Assignment.of, Assignment.entrySigns]

/-! ## The fields are read back -/

section Fields

variable {α β : Type} {shape : Shape α} {field : Yaml.Field α} {name : String}

theorem takes_ofString (value : String) {set : String → α → α}
    (hfind : shape.fields.find? (·.name = name) = some field)
    (hfield : field.decode = (Yaml.Field.optional name .string set).decode) :
    shape.Takes (ofString name value set) :=
  Shape.takes_of hfind hfield (reads_string _ _ _)

theorem takes_ofBool (value : Bool) {set : Bool → α → α}
    (hfind : shape.fields.find? (·.name = name) = some field)
    (hfield : field.decode = (Yaml.Field.optional name .bool set).decode) :
    shape.Takes (ofBool name value set) :=
  Shape.takes_of hfind hfield (reads_bool _ _)

/-- A record with all of its fields is read back if each field is. -/
theorem reads_recordSigns {place : ContentPlace} {assignments : List (Assignment α)}
    (hplace : place ≠ .flow) (h : ∀ s ∈ assignments, shape.Takes s)
    (hall : assignments.map Assignment.name = shape.fields.map Yaml.Field.name)
    (hnodup : (shape.fields.map Yaml.Field.name).Nodup) :
    Reads place (recordSigns assignments)
      (Decodes (.record shape) (shape.assemble assignments)) :=
  reads_record hplace h (hall ▸ hnodup) fun _ hf _ => hall ▸ List.mem_map_of_mem hf

theorem takes_ofRecord {inner : Shape β} {assignments : List (Assignment β)} {set : β → α → α}
    (hfind : shape.fields.find? (·.name = name) = some field)
    (hfield : field.decode = (Yaml.Field.optional name (.record inner) set).decode)
    (h : ∀ s ∈ assignments, inner.Takes s)
    (hall : assignments.map Assignment.name = inner.fields.map Yaml.Field.name)
    (hnodup : (inner.fields.map Yaml.Field.name).Nodup) :
    shape.Takes (ofRecord name assignments (inner.assemble assignments) set) :=
  Shape.takes_of hfind hfield (reads_recordSigns (by decide) h hall hnodup)

end Fields

theorem RuleEntry.takes (rule : RuleEntry) :
    ∀ s ∈ rule.assignments, Config.ruleShape.Takes s := by
  simp only [assignments, List.forall_mem_cons]
  exact ⟨takes_ofString _ rfl rfl, takes_ofBool _ rfl rfl, List.forall_mem_nil _⟩

theorem TitleSuffix.takes (t : TitleSuffix) :
    ∀ s ∈ t.assignments, Config.titleSuffixShape.Takes s := by
  simp only [assignments, List.forall_mem_cons]
  exact ⟨takes_ofString _ rfl rfl, takes_ofString _ rfl rfl, takes_ofString _ rfl rfl,
    List.forall_mem_nil _⟩

theorem ImportStatement.takes (i : ImportStatement) :
    ∀ s ∈ i.assignments, Config.importStatementShape.Takes s :=
  List.forall_mem_singleton.2 (takes_ofString _ rfl rfl)

theorem RuleEntry.reads (rule : RuleEntry) :
    Reads .block (recordSigns rule.assignments) (Decodes (.record Config.ruleShape) rule) :=
  reads_recordSigns (by decide) rule.takes rfl (by decide)

theorem takes_ofRules (rules : List RuleEntry) :
    ∀ s ∈ ofRules rules, Config.pipelineShape.Takes s := by
  have hreads : Reads .blockEntry (if rules = [] then [.flowSequence, .flowSequenceEnd]
      else rules.flatMap fun rule => .dash :: recordSigns rule.assignments)
      (Decodes (.list (.record Config.ruleShape)) rules) := by
    split
    case isTrue h => exact h ▸ reads_nil _ _
    case isFalse h => exact reads_list h fun rule _ => rule.reads
  exact List.forall_mem_singleton.2 (Shape.takes_of rfl rfl hreads)

theorem Config.takes (config : Config) : ∀ s ∈ config.assignments, Config.shape.Takes s := by
  simp only [assignments, List.forall_mem_cons]
  exact ⟨takes_ofString _ rfl rfl,
    takes_ofRecord rfl rfl config.titleSuffix.takes rfl (by decide),
    takes_ofRecord rfl rfl config.importStatement.takes rfl (by decide),
    takes_ofRecord rfl rfl (takes_ofRules config.pipeline) rfl (by decide),
    takes_ofBool _ rfl rfl, takes_ofBool _ rfl rfl, List.forall_mem_nil _⟩

/-- Every configuration is read back from its text. -/
theorem Config.read_toYaml (config : Config) : Config.shape.read config.toYaml = .ok config := by
  have hall : config.assignments.map Assignment.name = shape.fields.map Yaml.Field.name := rfl
  have hnodup : (shape.fields.map Yaml.Field.name).Nodup := by decide
  rw [toYaml_eq]
  exact Shape.read_lines config.areSound_lines config.signs_lines config.takes (hall ▸ hnodup)
    fun _ hf _ => hall ▸ List.mem_map_of_mem hf

/-- A configuration that is fit to run is loaded from the file that it was written to. -/
theorem Config.load_of_write {config : Config} {fs fs' : FileSystem} {path : String}
    (hfit : config.check = .ok ()) (hwrite : fs.write path config.toYaml.toUTF8 = .ok fs') :
    Config.load fs' (some path) = .ok config := by
  rw [load, loadFile, FileSystem.read_of_write hwrite]
  simp only [Except.mapError, bind, Except.bind, Text.Utf8.decode_toUTF8, read_toYaml, hfit]
  rfl

/-- Strings of all styles: what reads as a number, a truth value or nothing, one of several lines,
one between blanks, and characters that have to be escaped or that break lines elsewhere. -/
def Config.awkward : Config where
  extension := "0x1F"
  titleSuffix := { marker := "\n  a\nb\n\n", headingTag := " it's\u2028", headingClass := "~" }
  importStatement := { marker := "\t\x01\"\\😀" }
  pipeline := [⟨"", true⟩, ⟨"- a: b #", false⟩, ⟨"é\r\u0085", true⟩]
  progress := false
  dryRun := true

/-- The awkward configuration is written to a new file and loaded from it. -/
theorem Config.load_of_write_awkward :
    Config.awkward.check = .ok () ∧
      ∃ fs', (FileSystem.empty "work").write "config.yaml" Config.awkward.toYaml.toUTF8 = .ok fs' ∧
        Config.load fs' (some "config.yaml") = .ok Config.awkward := by
  have hfit : Config.awkward.check = .ok () := by decide
  have hwrite : (FileSystem.empty "work").write "config.yaml" Config.awkward.toYaml.toUTF8 =
      .ok _ :=
    FileSystem.write_of_vacant (by decide) (by decide) (by decide) _
  exact ⟨hfit, _, hwrite, load_of_write hfit hwrite⟩

end PageMend
