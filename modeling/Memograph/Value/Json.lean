import Memograph.Value
import Memograph.Json.Readable
import Memograph.Json.Reader
import Memograph.Numeral.Shortest

/-! Values as JSON documents: a number or an array of values. An integer literal of sixty-four
bits is an integer and any other number a float, so `1.0`, `1e2` and `9223372036854775808` are
floats; so is `-0`, whose sign no integer keeps. -/

namespace Memograph

namespace Scalar

/-- The number that a numeral writes; there is none beyond the range of floats. -/
def ofNumeral? (n : Numeral) : Option Scalar :=
  if n.isInteger ∧ n.magnitude < UInt64.size then
    if n.negative then
      if 0 < n.magnitude ∧ fits (-n.magnitude) then some (.int (Int64.ofInt (-n.magnitude)))
      else some (.float (-(Float.ofNat n.magnitude)))
    else if fits n.magnitude then some (.int (Int64.ofInt n.magnitude))
    else some (.float (Float.ofNat n.magnitude))
  else n.toFloat?.map .float

/-- The document of a number. Infinities and NaN have no numeral and are written as null. -/
def toJson : Scalar → Json
  | .int n => .ofInt n.toInt
  | .float x =>
    match Numeral.ofFloat? x with
    | some numeral => .number numeral
    | none => .null

end Scalar

namespace Value

mutual

/-- The value that a document writes. -/
def ofJson? : Json → Option Value
  | .number numeral => (Scalar.ofNumeral? numeral).map .scalar
  | .array items => (itemsOfJson? items).map .array
  | _ => none

def itemsOfJson? : List Json → Option (List Value)
  | [] => some []
  | item :: items => do
    let item ← ofJson? item
    let items ← itemsOfJson? items
    pure (item :: items)

end

mutual

def toJson : Value → Json
  | .scalar leaf => leaf.toJson
  | .array items => .array (itemsToJson items)

def itemsToJson : List Value → List Json
  | [] => []
  | item :: items => toJson item :: itemsToJson items

end

/-- The value that a document writes, within the nesting that a text may have. -/
def ofDocument? (json : Json) : Option Value :=
  if json.readable Json.nestingLimit then ofJson? json else none

def ofText? (text : String) : Option Value := (Json.parse? text).bind ofDocument?

end Value
end Memograph
