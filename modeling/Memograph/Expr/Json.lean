import Memograph.Expr
import Memograph.Json.Record
import Memograph.Value.Json

/-! Expressions as JSON documents. An expression is an object whose entry `kind` says which fields
it has besides, or an array of the kind and the fields in order. -/

namespace Memograph

namespace Expr

inductive Kind where
  | constant
  | name
  | vector
  | item
  | unary
  | binary
  | assign
  | sequence
  deriving DecidableEq, Repr

namespace Kind

/-- All kinds; the position of a kind is its number. -/
def all : List Kind := [constant, name, vector, item, unary, binary, assign, sequence]

def word : Kind → String
  | constant => "constant"
  | name => "variable"
  | vector => "vector"
  | item => "index"
  | unary => "monadic"
  | binary => "dyadic"
  | assign => "assign"
  | sequence => "sequence"

/-- The keys of the fields of a kind, in order. -/
def fields : Kind → List String
  | constant => ["value"]
  | name => ["name"]
  | vector => ["items"]
  | item => ["target", "index"]
  | unary => ["op", "arg"]
  | binary => ["op", "left", "right"]
  | assign => ["name", "value"]
  | sequence => ["body"]

/-- The kind that a document names. Inside of another expression it may be named by its number. -/
def ofJson? (outermost : Bool) : Json → Option Kind
  | .text (some word) => all.find? fun kind => kind.word == word
  | .number numeral =>
    if outermost then none else numeral.toCount?.bind fun position => all[position]?
  | _ => none

end Kind
end Expr

/-- The word that a document names a choice by: a text, or an object with that text as its only
key and nothing in it. -/
def Json.choice? : Json → Option String
  | .text content => content
  | .object [(key, .null)] => key
  | .object [(key, .object [])] => key
  | _ => none

def UnaryOp.word : UnaryOp → String
  | .negate => "negate"

def UnaryOp.ofJson? (json : Json) : Option UnaryOp :=
  json.choice?.bind fun word => [UnaryOp.negate].find? fun op => op.word == word

def BinaryOp.word : BinaryOp → String
  | .add => "add"
  | .subtract => "subtract"
  | .multiply => "multiply"
  | .divide => "divide"

def BinaryOp.ofJson? (json : Json) : Option BinaryOp :=
  json.choice?.bind fun word =>
    [BinaryOp.add, .subtract, .multiply, .divide].find? fun op => op.word == word

namespace Expr

/-- The kind of an expression and its fields in order, each there exactly once. -/
def shape? (outermost : Bool) : Json → Option (Kind × List Json)
  | .object entries => do
    let entries ← Json.keyed? entries
    let kind ← Kind.ofJson? outermost (← Json.fieldRequired? entries "kind")
    let fields ← Json.fieldsRequired? entries kind.fields
    pure (kind, fields)
  | .array (kind :: fields) => (Kind.ofJson? outermost kind).map fun kind => (kind, fields)
  | _ => none

/-- The expression that a document writes, nested at most `levels` deep. -/
def ofJson? (outermost : Bool) : Nat → Json → Option Expr
  | 0, _ => none
  | levels + 1, json =>
    match shape? outermost json with
    | some (.constant, [value]) => (Value.ofJson? value).map .constant
    | some (.name, [.text (some written)]) => some (.name written)
    | some (.vector, [.array items]) => (items.mapM (ofJson? false levels)).map .vector
    | some (.item, [target, index]) => do
      let target ← ofJson? false levels target
      let index ← ofJson? false levels index
      pure (.item target index)
    | some (.unary, [op, operand]) => do
      let op ← UnaryOp.ofJson? op
      let operand ← ofJson? false levels operand
      pure (.unary op operand)
    | some (.binary, [op, left, right]) => do
      let op ← BinaryOp.ofJson? op
      let left ← ofJson? false levels left
      let right ← ofJson? false levels right
      pure (.binary op left right)
    | some (.assign, [.text (some written), value]) =>
      (ofJson? false levels value).map (.assign written)
    | some (.sequence, [.array statements]) =>
      (statements.mapM (ofJson? false levels)).map .sequence
    | _ => none

/-- The expression that a document writes, where its arrays and objects may be nested `limit`
deep. -/
def ofDocument? (limit : Nat) (json : Json) : Option Expr :=
  if json.readable limit then ofJson? true (limit + 1) json else none

def ofText? (text : String) : Option Expr :=
  (Json.parse? text).bind (ofDocument? Json.nestingLimit)

/-- The object of a kind and its fields. -/
def record (kind : Kind) (fields : List (String × Json)) : Json :=
  .ofEntries (("kind", .ofString kind.word) :: fields)

mutual

/-- The document of an expression: the kind first, and the fields in their order. -/
def toJson : Expr → Json
  | .constant value => record .constant [("value", value.toJson)]
  | .name written => record .name [("name", .ofString written)]
  | .vector items => record .vector [("items", .array (listToJson items))]
  | .item target index => record .item [("target", toJson target), ("index", toJson index)]
  | .unary op operand => record .unary [("op", .ofString op.word), ("arg", toJson operand)]
  | .binary op left right =>
    record .binary [("op", .ofString op.word), ("left", toJson left), ("right", toJson right)]
  | .assign written value => record .assign [("name", .ofString written), ("value", toJson value)]
  | .sequence statements => record .sequence [("body", .array (listToJson statements))]

def listToJson : List Expr → List Json
  | [] => []
  | expr :: exprs => toJson expr :: listToJson exprs

end

end Expr
end Memograph
