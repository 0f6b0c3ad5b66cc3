import Memograph.Json

/-! The compact text of a document: no blanks, entries in their order, and only the characters
escaped that a text cannot hold as they are. -/

namespace Memograph.Json

/-- The lower-case digit of a number below sixteen. -/
def hexChar (n : Nat) : Char := Nat.digitChar (n % 16)

/-- The characters that stand for one character inside a text. Quotes, backslashes and control
characters are escaped, with a letter where there is one. -/
def escapeChar (c : Char) : List Char :=
  if c = '"' then ['\\', '"']
  else if c = '\\' then ['\\', '\\']
  else if c = '\x08' then ['\\', 'b']
  else if c = '\x0c' then ['\\', 'f']
  else if c = '\n' then ['\\', 'n']
  else if c = '\r' then ['\\', 'r']
  else if c = '\t' then ['\\', 't']
  else if c.toNat < 32 then ['\\', 'u', '0', '0', hexChar (c.toNat / 16), hexChar c.toNat]
  else [c]

def quote (content : List Char) : List Char := '"' :: content.flatMap escapeChar ++ ['"']

mutual

/-- The characters of a document. An unreadable text is written as an empty one. -/
def chars : Json → List Char
  | .null => "null".toList
  | .bool true => "true".toList
  | .bool false => "false".toList
  | .number numeral => numeral.chars
  | .text content => quote (content.getD "").toList
  | .array [] => ['[', ']']
  | .array (item :: items) => '[' :: chars item ++ charsOfItems items ++ [']']
  | .object [] => ['\x7b', '\x7d']
  | .object ((key, value) :: entries) =>
    '\x7b' :: quote (key.getD "").toList ++ ':' :: chars value ++ charsOfEntries entries ++ ['\x7d']

/-- The characters of the items after the first, each with a comma in front. -/
def charsOfItems : List Json → List Char
  | [] => []
  | item :: items => ',' :: chars item ++ charsOfItems items

/-- The characters of the entries after the first, each with a comma in front. -/
def charsOfEntries : List (Option String × Json) → List Char
  | [] => []
  | (key, value) :: entries =>
    ',' :: quote (key.getD "").toList ++ ':' :: chars value ++ charsOfEntries entries

end

def compact (json : Json) : String := String.ofList json.chars

end Memograph.Json
