import Memograph.Numeral

/-! JSON documents as they are written: numbers keep their digits, objects keep the order of their
entries and any repeated keys, and a text whose escapes name only half of a surrogate pair is kept
as unreadable. What a document stands for is decided by whoever reads it. -/

namespace Memograph

/-- A JSON document. A text is `none` where its escapes do not spell characters. -/
inductive Json where
  | null
  | bool (value : Bool)
  | number (numeral : Numeral)
  | text (content : Option String)
  | array (items : List Json)
  | object (entries : List (Option String × Json))
  deriving Inhabited

namespace Json

/-- The document of a text that is known. -/
def ofString (s : String) : Json := .text (some s)

/-- An object whose keys are known. -/
def ofEntries (entries : List (String × Json)) : Json :=
  .object (entries.map fun entry => (some entry.1, entry.2))

def ofInt (n : Int) : Json := .number (.ofInt n)

def ofNat (n : Nat) : Json := .number (.ofNat n)

/-- The text of a document that is a readable text. -/
def string? : Json → Option String
  | .text content => content
  | _ => none

/-- The value of the last entry with a key, of a document that is an object. -/
def field? (json : Json) (key : String) : Option Json :=
  match json with
  | .object entries =>
    (entries.reverse.find? fun entry => entry.1 == some key).map Prod.snd
  | _ => none

def items? : Json → Option (List Json)
  | .array items => some items
  | _ => none

end Json
end Memograph
