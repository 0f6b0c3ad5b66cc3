import Memograph.Json

/-! Records in JSON documents. A record is an object whose entries are its fields in any order, or
an array of its fields in their order. Fields nobody knows are skipped, and a known field may come
only once. -/

namespace Memograph.Json

/-- Entries whose keys can all be read. -/
def keyed? : List (Option String × Json) → Option (List (String × Json))
  | [] => some []
  | (some key, value) :: entries => (keyed? entries).map ((key, value) :: ·)
  | (none, _) :: _ => none

/-- The field with a key: not there, there once, or no answer where it is repeated. -/
def fieldOnce? (entries : List (String × Json)) (key : String) : Option (Option Json) :=
  match entries.filter fun entry => entry.1 == key with
  | [] => some none
  | [(_, value)] => some (some value)
  | _ => none

/-- The field with a key that has to be there once. -/
def fieldRequired? (entries : List (String × Json)) (key : String) : Option Json :=
  (fieldOnce? entries key).bind id

/-- The fields with the given keys, each of which is there at most once. -/
def fieldsOnce? (entries : List (String × Json)) : List String → Option (List (Option Json))
  | [] => some []
  | key :: keys => do
    let value ← fieldOnce? entries key
    let values ← fieldsOnce? entries keys
    pure (value :: values)

/-- The fields with the given keys, each of which has to be there once. -/
def fieldsRequired? (entries : List (String × Json)) : List String → Option (List Json)
  | [] => some []
  | key :: keys => do
    let value ← fieldRequired? entries key
    let values ← fieldsRequired? entries keys
    pure (value :: values)

/-- The fields of a record in the order of their keys. An array may stop early and has no field
past the last key. -/
def record? (keys : List String) : Json → Option (List (Option Json))
  | .object entries => (keyed? entries).bind fun entries => fieldsOnce? entries keys
  | .array items =>
    if items.length ≤ keys.length then
      some (items.map some ++ List.replicate (keys.length - items.length) none)
    else none
  | _ => none

end Memograph.Json
