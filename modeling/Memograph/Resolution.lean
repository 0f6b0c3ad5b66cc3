import Memograph.Definition

/-! Compiling a definition in a context: every name of the body is bound before the body is ever
run. The indexer stands for the slot index, a name assigned without a dot is a local of one run,
and everything else is a variable, in the context of the definition unless it brings its own. The
defined name is always a variable, so assigning it without a dot writes the variable and not a
local. -/

namespace Memograph

/-- What a written name stands for inside of a body. -/
inductive Binding where
  | indexer
  | localName
  | global (name : QualifiedName)
  deriving DecidableEq, Repr

/-- The bindings of the names of a body. -/
structure Resolution where
  context : ContextPath
  /-- The variable that the body defines, if it defines one. -/
  owner : Option QualifiedName
  indexer : Option String
  locals : List String
  globals : Table String QualifiedName
  deriving DecidableEq

namespace Resolution

/-- The bindings of an expression outside of any definition: every name is a variable. -/
def topLevel (context : ContextPath) : Resolution := ⟨context, none, none, [], ∅⟩

def resolve (resolution : Resolution) (written : String) : Binding :=
  if resolution.indexer = some written then .indexer
  else if written ∈ resolution.locals then .localName
  else .global ((resolution.globals.get? written).getD (qualify resolution.context written))

end Resolution

/-- A definition whose names are bound. -/
structure Compiled where
  name : QualifiedName
  /-- The variables that the body reads, each once. -/
  reads : List QualifiedName
  resolution : Resolution
  body : Expr
  source : String

namespace Compiled

def isItemwise (compiled : Compiled) : Bool := compiled.resolution.indexer.isSome

end Compiled

namespace Usage

/-- Whether a name can be the indexer of the definition of a variable: a valid name without a dot,
other than the variable as written, that is nowhere assigned. -/
def canIndex (usage : Usage) (written indexer : String) : Bool :=
  isValidName indexer && !isDotted indexer && indexer != written &&
    !usage.localAssignment.contains indexer

def withoutIndexer (usage : Usage) : Option String → Usage
  | none => usage
  | some indexer => { usage with accessing := usage.accessing.erase indexer }

/-- The usage with the local assignments of the defined name counted as global ones. -/
def promote (usage : Usage) (written : String) : Usage :=
  match usage.localAssignment.get? written with
  | none => usage
  | some count =>
    { usage with
      localAssignment := usage.localAssignment.erase written
      globalAssignment := countUp usage.globalAssignment written count }

/-- The names that are read, and then the names that are assigned with a dot. -/
def globalCandidates (usage : Usage) : List String :=
  usage.accessing.keys ++ usage.globalAssignment.keys

end Usage

/-- The qualified names of those candidates that are not locals, each under its written name. The
first that is not well formed is an error. -/
def qualifyGlobals (context : ContextPath) (locals : List String) :
    List String → Except Error (List (String × QualifiedName))
  | [] => .ok []
  | written :: candidates =>
    if written ∈ locals then qualifyGlobals context locals candidates
    else if isValidName written then do
      let globals ← qualifyGlobals context locals candidates
      pure ((written, qualify context written) :: globals)
    else .error (.unresolvedName written)

namespace Definition

/-- Binds the names of a definition in a context. The defined name is checked first, then the
indexer, then the locals, then the names read, then the names assigned with a dot. -/
def compile (definition : Definition) (context : ContextPath) : Except Error Compiled :=
  let written := definition.written
  if !isValidName written then .error (.unresolvedName written)
  else if definition.indexer.any fun indexer => !definition.usage.canIndex written indexer then
    .error (.unboundIndexer written (definition.indexer.getD ""))
  else
    let usage := (definition.usage.withoutIndexer definition.indexer).promote written
    let locals := usage.localAssignment.keys
    match locals.find? fun written => !isValidName written with
    | some bad => .error (.unresolvedName bad)
    | none => do
      let name := qualify context written
      let qualified ← qualifyGlobals context locals usage.globalCandidates
      let globals := (Table.ofList qualified).insert written name
      pure
        { name
          reads := (usage.accessing.keys.filterMap globals.get?).eraseDups
          resolution := ⟨context, some name, definition.indexer, locals, globals⟩
          body := definition.body
          source := definition.source }

end Definition
end Memograph
