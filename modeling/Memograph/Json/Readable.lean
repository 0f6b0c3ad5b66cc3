import Memograph.Json
import Memograph.Numeral.Floating

/-! Which documents can be taken in whole: every number lies in the range of floats, every text
spells characters, and arrays and objects are nested no deeper than a limit. A reader that skips a
part of a document does not ask this of the part it skips. -/

namespace Memograph

/-- Whether a numeral is a sixty-four-bit integer or in the range of floats. -/
def Numeral.inRange (n : Numeral) : Bool :=
  (n.isInteger && decide (n.magnitude < UInt64.size)) || n.toFloat?.isSome

namespace Json

/-- How deep arrays and objects may be nested in a text. -/
def nestingLimit : Nat := 127

mutual

/-- Whether a document can be taken in with arrays and objects nested at most `limit` deep. -/
def readable (limit : Nat) : Json → Bool
  | .null => true
  | .bool _ => true
  | .number numeral => numeral.inRange
  | .text content => content.isSome
  | .array items =>
    match limit with
    | 0 => false
    | limit + 1 => readableItems limit items
  | .object entries =>
    match limit with
    | 0 => false
    | limit + 1 => readableEntries limit entries

def readableItems (limit : Nat) : List Json → Bool
  | [] => true
  | item :: items => readable limit item && readableItems limit items

def readableEntries (limit : Nat) : List (Option String × Json) → Bool
  | [] => true
  | (key, value) :: entries =>
    key.isSome && readable limit value && readableEntries limit entries

end

end Json
end Memograph
