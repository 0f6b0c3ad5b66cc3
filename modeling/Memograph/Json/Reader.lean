import Memograph.Json.Token

/-! Documents from tokens. The reader walks the tokens once and keeps the arrays and objects that
are still open on a stack, so it ends with its tokens. A text is one document and nothing
besides. -/

namespace Memograph.Json

/-- An array or object that is still open, with the items it has so far, latest first. -/
inductive Opened where
  | array (items : List Json)
  | object (entries : List (Option String × Json)) (key : Option String)

/-- What the reader looks for next. -/
inductive Expecting where
  | value
  | valueOrEnd
  | key
  | keyOrEnd
  | colon (key : Option String)
  | separator

/-- The reader between two tokens. -/
structure Reading where
  opened : List Opened
  expecting : Expecting

/-- What a token leads to: further reading, or the whole document. -/
inductive Progress where
  | reading (state : Reading)
  | complete (document : Json)

/-- Puts a finished value into the innermost open array or object. -/
def place (value : Json) : List Opened → Progress
  | [] => .complete value
  | .array items :: outer => .reading ⟨.array (value :: items) :: outer, .separator⟩
  | .object entries key :: outer =>
    .reading ⟨.object ((key, value) :: entries) none :: outer, .separator⟩

/-- Closes the innermost open array or object. -/
def close : List Opened → Option (Json × List Opened)
  | [] => none
  | .array items :: outer => some (.array items.reverse, outer)
  | .object entries _ :: outer => some (.object entries.reverse, outer)

/-- Begins a value with a token. -/
def beginValue (opened : List Opened) : Token → Option Progress
  | .openArray => some (.reading ⟨.array [] :: opened, .valueOrEnd⟩)
  | .openObject => some (.reading ⟨.object [] none :: opened, .keyOrEnd⟩)
  | .null => some (place .null opened)
  | .bool b => some (place (.bool b) opened)
  | .number n => some (place (.number n) opened)
  | .text s => some (place (.text s) opened)
  | _ => none

def advance (state : Reading) (token : Token) : Option Progress :=
  match state.expecting, token, state.opened with
  | .value, token, opened => beginValue opened token
  | .valueOrEnd, .closeArray, opened => (close opened).map fun (value, outer) => place value outer
  | .valueOrEnd, token, opened => beginValue opened token
  | .key, .text key, opened => some (.reading ⟨opened, .colon key⟩)
  | .keyOrEnd, .text key, opened => some (.reading ⟨opened, .colon key⟩)
  | .keyOrEnd, .closeObject, opened => (close opened).map fun (value, outer) => place value outer
  | .colon key, .colon, .object entries _ :: outer =>
    some (.reading ⟨.object entries key :: outer, .value⟩)
  | .separator, .comma, .array items :: outer => some (.reading ⟨.array items :: outer, .value⟩)
  | .separator, .comma, .object entries key :: outer =>
    some (.reading ⟨.object entries key :: outer, .key⟩)
  | .separator, .closeArray, .array items :: outer => some (place (.array items.reverse) outer)
  | .separator, .closeObject, .object entries _ :: outer =>
    some (place (.object entries.reverse) outer)
  | _, _, _ => none

def readTokens : Progress → List Token → Option Json
  | .complete document, [] => some document
  | .complete _, _ :: _ => none
  | .reading _, [] => none
  | .reading state, token :: tokens =>
    match advance state token with
    | some progress => readTokens progress tokens
    | none => none

/-- The document that a text holds, if it holds exactly one. -/
def parse? (text : String) : Option Json :=
  match scan text.toList with
  | some tokens => readTokens (.reading ⟨[], .value⟩) tokens
  | none => none

end Memograph.Json
