import Memograph.Name

/-! What can go wrong while variables are defined, read and recomputed. Each constructor is a
cause; `message` gives its wording. -/

namespace Memograph

/-- The operations that a length, domain or type error names. -/
inductive Operation where
  | add
  | subtract
  | multiply
  | divide
  | index
  | scalar
  | native
  deriving DecidableEq, Repr

def Operation.name : Operation → String
  | .add => "add"
  | .subtract => "subtract"
  | .multiply => "multiply"
  | .divide => "divide"
  | .index => "index"
  | .scalar => "scalar"
  | .native => "native"

inductive Error where
  /-- A recompute reached itself; the chain leads from it back to it. -/
  | circularDependency (name : QualifiedName) (chain : List QualifiedName)
  /-- Nothing is registered under the name. -/
  | unknownDependency (name : QualifiedName)
  /-- The name is taken and may not be defined again. -/
  | redefinitionConflict (name : QualifiedName)
  | undefinedVariable (name : QualifiedName)
  /-- An itemwise dependency was read as a whole. -/
  | indexRequired (name : QualifiedName)
  | length (operation : Operation)
  | domain (operation : Operation)
  | type (operation : Operation)
  | index (index : Int64) (length : Nat)
  /-- The index name of an itemwise definition cannot be bound in its body. -/
  | unboundIndexer (written indexer : String)
  /-- A written name is not well formed. -/
  | unresolvedName (written : String)
  /-- A text is not the definition, configuration or expression it should be. -/
  | malformedDefinition
  deriving DecidableEq, Repr

namespace Error

def message : Error → String
  | .circularDependency name chain =>
    "circular dependency on " ++ name.display ++ ": " ++
      " -> ".intercalate (chain.map QualifiedName.display)
  | .unknownDependency name => "unknown dependency: " ++ name.display
  | .redefinitionConflict name => "dependency already defined: " ++ name.display
  | .undefinedVariable name => "value error: " ++ name.display ++ " is undefined"
  | .indexRequired name =>
    name.display ++ " is an itemwise dependency and must be read with an index"
  | .length operation => "length error in " ++ operation.name
  | .domain operation => "domain error in " ++ operation.name
  | .type operation => "type error in " ++ operation.name
  | .index position size =>
    "index error: " ++ toString position.toInt ++ " is out of range for length " ++ toString size
  | .unboundIndexer written indexer =>
    "itemwise definition of " ++ written ++ " has unbound indexer `" ++ indexer ++ "`"
  | .unresolvedName written => "cannot resolve name `" ++ written ++ "` to a context"
  | .malformedDefinition => "malformed definition"

end Error
end Memograph
