import Memograph.Definition
import Memograph.Expr.Json
import Memograph.Json.Text

/-! Definitions as JSON texts. A definition is a record; a missing indexer, source or usage is
filled in, and a usage without entries is taken from the body. The compact text of a definition
writes every field, so it can be read back. -/

namespace Memograph

namespace Usage

/-- The keys of a usage's tables, in order. -/
def keys : List String := ["accessing", "local_assignment", "global_assignment"]

/-- The counts that the entries of a table write. -/
def countsOfEntries? : List (String × Json) → Option (List (String × Nat))
  | [] => some []
  | (written, .number numeral) :: entries => do
    let count ← numeral.toCount?
    let counts ← countsOfEntries? entries
    pure ((written, count) :: counts)
  | _ => none

/-- The table that a document writes; a missing one is empty. A repeated name keeps its first
place and takes its last count. -/
def tableOfJson? : Option Json → Option (Table String Nat)
  | none => some ∅
  | some (.object entries) => do
    let entries ← Json.keyed? entries
    let counts ← countsOfEntries? entries
    pure (Table.ofList counts)
  | some _ => none

def ofJson? (json : Json) : Option Usage :=
  match Json.record? keys json with
  | some [accessing, localAssignment, globalAssignment] => do
    let accessing ← tableOfJson? accessing
    let localAssignment ← tableOfJson? localAssignment
    let globalAssignment ← tableOfJson? globalAssignment
    pure ⟨accessing, localAssignment, globalAssignment⟩
  | _ => none

def tableToJson (table : Table String Nat) : Json :=
  .ofEntries (table.entries.map fun entry => (entry.1, .ofNat entry.2))

def toJson (usage : Usage) : Json :=
  .ofEntries [("accessing", tableToJson usage.accessing),
    ("local_assignment", tableToJson usage.localAssignment),
    ("global_assignment", tableToJson usage.globalAssignment)]

end Usage

namespace Definition

def keys : List String := ["variable", "indexer", "body", "source", "variables"]

/-- The indexer that a field writes; it may be missing or null. -/
def indexerOfJson? : Option Json → Option (Option String)
  | none => some none
  | some .null => some none
  | some (.text (some indexer)) => some (some indexer)
  | some _ => none

/-- The source that a field writes; it may be missing. -/
def sourceOfJson? : Option Json → Option String
  | none => some ""
  | some (.text content) => content
  | some _ => none

/-- The usage that a field writes; it may be missing. -/
def usageOfJson? : Option Json → Option Usage
  | none => some Usage.empty
  | some json => Usage.ofJson? json

/-- The definition that a document writes, with the usage it writes. -/
def ofJson? (json : Json) : Option Definition :=
  match Json.record? keys json with
  | some [some (.text (some written)), indexer, some body, source, usage] => do
    let indexer ← indexerOfJson? indexer
    let body ← Expr.ofDocument? (Json.nestingLimit - 1) body
    let source ← sourceOfJson? source
    let usage ← usageOfJson? usage
    pure ⟨written, indexer, body, source, usage⟩
  | _ => none

/-- The definition that a document writes, with its usage filled in where it has no entries. -/
def ofDocument? (json : Json) : Option Definition := (ofJson? json).map completed

def ofText? (text : String) : Option Definition := (Json.parse? text).bind ofDocument?

def toJson (definition : Definition) : Json :=
  .ofEntries [("variable", .ofString definition.written),
    ("indexer", match definition.indexer with
      | none => .null
      | some indexer => .ofString indexer),
    ("body", definition.body.toJson),
    ("source", .ofString definition.source),
    ("variables", definition.usage.toJson)]

def text (definition : Definition) : String := definition.toJson.compact

end Definition
end Memograph
