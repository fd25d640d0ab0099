import PageMend.Config.Basic
import PageMend.Page.Basic

/-!
# Rules

A rule finds one thing on a page and mends it. `Rule.apply` answers the page and whether the rule
fired. `active` are the rules of a pipeline that are run, and `mend` runs them once each, in order;
the page then counts as modified if one fired.
-/

namespace PageMend

inductive Rule where
  /-- Removes the marker from the title and the first title heading. -/
  | titleSuffix
  /-- Removes the row that states an import from the first table that has one. -/
  | importStatement
  deriving DecidableEq, Repr

namespace Rule

/-- The name by which a pipeline lists a rule. -/
def name : Rule → String
  | .titleSuffix => "TitleSuffixStrip"
  | .importStatement => "ImportStatementRemoval"

/-- What a rule does, for a reader. -/
def label : Rule → String
  | .titleSuffix => "Removed QML type suffix"
  | .importStatement => "Removed import statement"

def all : List Rule := [.titleSuffix, .importStatement]

/-- The rule of that name. -/
def named? (name : String) : Option Rule := all.find? (·.name = name)

@[simp] theorem named?_name (r : Rule) : named? r.name = some r := by cases r <;> decide

theorem name_injective {r s : Rule} (h : r.name = s.name) : r = s := by
  have := congrArg named? h
  simpa using this

/-! ### Applying a rule -/

/-- The title is matched as a whole, so that a marker may be split by markup in it; the title then
becomes one text. The heading is matched one text node at a time. -/
def stripTitleSuffix (config : TitleSuffix) (page : Page) : Page × Bool :=
  match page.title with
  | none => (page, false)
  | some title =>
    if title.hasInfix config.marker then
      let page := (page.setTitle (title.replaceEach config.marker "")).1
      match (page.headings config.headingTag config.headingClass).head? with
      | none => (page, true)
      | some heading => ((page.replaceText heading config.marker "").1, true)
    else (page, false)

/-- The row to remove: that of the first table whose first cell holds the marker. -/
def importRow (config : ImportStatement) (page : Page) : Option Nat :=
  page.tables.findSome? fun table => do
    let cell ← page.firstCell table
    if (page.tree.text cell).hasInfix config.marker then page.rowOf cell else none

def removeImportStatement (config : ImportStatement) (page : Page) : Page × Bool :=
  match importRow config page with
  | none => (page, false)
  | some row => page.remove row

/-- Applies a rule, and tells whether it fired. -/
def apply (config : Config) (page : Page) : Rule → Page × Bool
  | .titleSuffix => stripTitleSuffix config.titleSuffix page
  | .importStatement => removeImportStatement config.importStatement page

end Rule

/-! ### Pipelines -/

/-- The rule that an entry runs: none if the entry is disabled or its name unknown. -/
def RuleEntry.rule? (e : RuleEntry) : Option Rule := if e.enabled then Rule.named? e.name else none

/-- The rules that a pipeline runs: each once, at its first entry. -/
def activeRules (pipeline : List RuleEntry) : List Rule :=
  (pipeline.filterMap RuleEntry.rule?).eraseDups

/-- The label of the active rule of that name. -/
def labelFor (pipeline : List RuleEntry) (name : String) : Option String :=
  ((activeRules pipeline).find? (·.name = name)).map Rule.label

/-- Applies rules in order, and tells which fired. -/
def applyRules (config : Config) : List Rule → Page → Page × List Rule
  | [], page => (page, [])
  | r :: rs, page =>
    let (page, fired) := r.apply config page
    let (page, others) := applyRules config rs page
    (page, if fired then r :: others else others)

/-- Applies the active rules of a configuration. The page is modified if one fired. -/
def mend (config : Config) (page : Page) : Page × List Rule :=
  let (page, fired) := applyRules config (activeRules config.pipeline) page
  (if fired.isEmpty then page else { page with modified := true }, fired)

end PageMend
