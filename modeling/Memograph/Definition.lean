import Memograph.Usage

/-! Definitions of variables by expressions. A definition with an indexer defines a variable item
by item: the indexer stands for the index in its body. -/

namespace Memograph

structure Definition where
  /-- The defined variable, as written. -/
  written : String
  indexer : Option String
  body : Expr
  /-- The text that the definition came from, for whoever wants to show it. -/
  source : String
  usage : Usage
  deriving Inhabited

namespace Definition

/-- The definition with a body, whose usage is that of the body. -/
def ofBody (written : String) (indexer : Option String) (body : Expr) (source : String) :
    Definition :=
  ⟨written, indexer, body, source, Usage.ofExpr body⟩

def isItemwise (definition : Definition) : Bool := definition.indexer.isSome

/-- The definition with its usage taken from its body where it came without any. -/
def completed (definition : Definition) : Definition :=
  if definition.usage.isEmpty then { definition with usage := Usage.ofExpr definition.body }
  else definition

/-- The definition made again from its parts, without the usage it came with. -/
def rebuilt (definition : Definition) : Definition :=
  ofBody definition.written definition.indexer definition.body definition.source

/-- Equality of definitions; the order of their usages does not count. -/
def same (definition definition' : Definition) : Bool :=
  definition.written == definition'.written && definition.indexer == definition'.indexer &&
    definition.body.same definition'.body && definition.source == definition'.source &&
    definition.usage.agrees definition'.usage

end Definition
end Memograph
