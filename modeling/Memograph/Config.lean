import Memograph.Json.Reader
import Memograph.Json.Record
import Memograph.Json.Text

/-! The configuration of an environment, and its JSON text. -/

namespace Memograph

/-- What defining a name again does. -/
inductive Redefinition where
  /-- The new definition is refused. -/
  | reject
  /-- The new definition takes the place of the old one. -/
  | replace
  deriving DecidableEq, Repr, Inhabited

structure Config where
  redefinition : Redefinition
  deriving DecidableEq, Repr, Inhabited

namespace Redefinition

def word : Redefinition → String
  | reject => "reject"
  | replace => "replace"

def ofWord? (word : String) : Option Redefinition :=
  [reject, replace].find? fun redefinition => redefinition.word == word

/-- What a document stands for: a word, or an object with the word as its only key and null in
it. -/
def ofJson? : Json → Option Redefinition
  | .text (some word) => ofWord? word
  | .object [(some word, .null)] => ofWord? word
  | _ => none

end Redefinition

namespace Config

/-- The configuration of an environment that is given none. -/
def standard : Config := ⟨.reject⟩

def keys : List String := ["redefinition"]

/-- The configuration that a document writes; what is missing is as in the standard one. -/
def ofDocument? (json : Json) : Option Config :=
  match Json.record? keys json with
  | some [none] => some standard
  | some [some json] => (Redefinition.ofJson? json).map Config.mk
  | _ => none

def ofText? (text : String) : Option Config := (Json.parse? text).bind ofDocument?

def text (config : Config) : String :=
  (Json.ofEntries [("redefinition", .ofString config.redefinition.word)]).compact

end Config
end Memograph
