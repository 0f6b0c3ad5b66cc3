import Memograph.Expr.Evaluation

/-! Procedures of dependencies. A procedure is a compiled body or a script: steps that are taken
one after the other, whatever each of them answers, and a verdict that gives the value in the end.
Steps are also what a session is made of. -/

namespace Memograph

/-- A name in a step: as written, to be qualified where the step is taken, or already qualified. -/
inductive NameRef where
  | written (name : String)
  | qualified (name : QualifiedName)

/-- An index in a step: a number, or the index that the enclosing script runs for. -/
inductive IndexRef where
  | position (index : Int64)
  | current

inductive Fault where
  | length
  | type
  | domain
  | index
  | undefined
  deriving DecidableEq, Repr

/-- The value of a script. The fault comes first; then, in a script that runs for an index, the
multiple of the index; then the value of an expression, whose text may not have been one. -/
structure Verdict where
  fault : Option Fault
  multiple : Option Int64
  expr : Option Expr

/-- A step of a session or script. -/
inductive Step where
  | enter (context : ContextPath)
  | assign (name : NameRef) (value : Value)
  /-- Defines a variable in a context, the active one if none is given. -/
  | define (definition : Definition) (context : Option ContextPath)
  /-- Registers a dependency that is computed by a script. -/
  | register (name : NameRef) (shape : Shape) (reads : List NameRef) (steps : List Step)
      (verdict : Verdict)
  | read (name : NameRef) (index : Option IndexRef)
  | evaluate (name : NameRef) (index : Option IndexRef)
  | eval (expr : Expr)
  /-- Runs the body of a definition once, without registering it. -/
  | runOnce (definition : Definition) (context : Option ContextPath) (index : Option IndexRef)
  | stored (name : NameRef)
  | invalidate (name : NameRef)
  | notify (name : NameRef)
  | status (name : NameRef) (index : Option IndexRef)
  | readers (name : NameRef)
  | source (name : NameRef)
  | recomputes (name : NameRef)
  | contains (name : NameRef)
  | names
  | config
  | items
  | dependency (name : NameRef)
  | describe (name : NameRef)
  | sleep (milliseconds : Int)
  /-- Several reads, each answered on its own. -/
  | several (reads : List (NameRef × Option IndexRef))
  /-- A step that could not be understood. -/
  | refused (failure : Failure)

inductive Procedure where
  | compiled (resolution : Resolution) (body : Expr)
  | script (steps : List Step) (verdict : Verdict)

/-- What registering a compiled definition registers. An empty source is none. -/
def Compiled.registration (compiled : Compiled) : Registration Procedure where
  shape := if compiled.isItemwise then .itemwise else .scalar
  reads := compiled.reads
  procedure := .compiled compiled.resolution compiled.body
  source := if compiled.source.isEmpty then none else some compiled.source

end Memograph
