import Memograph.Dependency.Description
import Memograph.Procedure

/-! What steps and scripts do, as dialogues with their environment. -/

namespace Memograph

/-- A dialogue of this library's procedures. -/
abbrev Exchange (α : Type) := Dialogue Procedure α

namespace Exchange

def inspect : Exchange (Environment Procedure) := .request .inspect

/-- The variable that a name in a step stands for. -/
def resolve : NameRef → Exchange QualifiedName
  | .written name => do
    let env ← inspect
    pure (qualify env.context name)
  | .qualified name => pure name

def resolveAll : List NameRef → Exchange (List QualifiedName)
  | [] => pure []
  | name :: names => do
    let name ← resolve name
    let names ← resolveAll names
    pure (name :: names)

/-- The index that a step means where the enclosing script runs for `slot`. -/
def position (slot : Int64) : IndexRef → Int64
  | .position index => index
  | .current => slot

def read (slot : Int64) (name : NameRef) (index : Option IndexRef) : Exchange Answer := do
  let name ← resolve name
  let result ← Dialogue.request (.read name (index.map (position slot)))
  pure (.ofResult result)

def readAll (slot : Int64) : List (NameRef × Option IndexRef) → Exchange (List Answer)
  | [] => pure []
  | (name, index) :: rest => do
    let answer ← read slot name index
    let answers ← readAll slot rest
    pure (answer :: answers)

/-- The value of an expression at top level, in the active context. -/
def eval (expr : Expr) : Exchange (Except Error Value) := do
  let env ← inspect
  expr.dialogue (.topLevel env.context) none

def contextOrActive : Option ContextPath → Exchange ContextPath
  | some context => pure context
  | none => do
    let env ← inspect
    pure env.context

/-- Registers a dependency and answers with its name. -/
def register (name : QualifiedName) (registration : Registration Procedure) : Exchange Answer := do
  match ← Dialogue.request (.register name registration) with
  | .ok () => pure (.defined name)
  | .error cause => pure (.failed (.error cause))

def define (definition : Definition) (context : Option ContextPath) : Exchange Answer := do
  match definition.compile (← contextOrActive context) with
  | .ok compiled => register compiled.name compiled.registration
  | .error cause => pure (.failed (.error cause))

def runOnce (definition : Definition) (context : Option ContextPath) (index : Option Int64) :
    Exchange Answer := do
  match definition.compile (← contextOrActive context) with
  | .ok compiled =>
    let result ← compiled.body.dialogue compiled.resolution index
    pure (.ofResult result)
  | .error cause => pure (.failed (.error cause))

/-- Looks up the dependency of a name and answers from it. -/
def ofDependency (name : NameRef)
    (answer : QualifiedName → Option (Dependency Procedure) → Answer) : Exchange Answer := do
  let name ← resolve name
  let env ← inspect
  pure (answer name (env.dependencies.get? name))

/-- The answer of a dependency that has to be there. -/
def known (answer : QualifiedName → Dependency Procedure → Answer) (name : QualifiedName) :
    Option (Dependency Procedure) → Answer
  | some dependency => answer name dependency
  | none => .failed (.error (.unknownDependency name))

/-- The status of a scalar dependency, or of a slot of an itemwise one. -/
def statusOf (index : Option Int64) : Option (Dependency Procedure) → Option Status
  | none => none
  | some dependency =>
    match dependency.shape, index with
    | .scalar, none => some (dependency.status none)
    | .itemwise, some position => some (dependency.status (some position))
    | _, _ => none

end Exchange

namespace Step

/-- What a step does in a script that runs for `slot`. -/
def dialogue (slot : Int64) : Step → Exchange Answer
  | .enter context => do
    Dialogue.request (.enter context)
    pure (.entered context)
  | .assign name value => do
    let name ← Exchange.resolve name
    let invalidated ← Dialogue.request (.assign name value)
    pure (.invalidated invalidated)
  | .define definition context => Exchange.define definition context
  | .register name shape reads steps verdict => do
    let name ← Exchange.resolve name
    let reads ← Exchange.resolveAll reads
    Exchange.register name ⟨shape, reads.eraseDups, .script steps verdict, none⟩
  | .read name index => Exchange.read slot name index
  | .evaluate name index => do
    let name ← Exchange.resolve name
    let result ← Dialogue.request (.evaluate name (index.map (Exchange.position slot)))
    pure (.ofResult result)
  | .eval expr => do
    let result ← Exchange.eval expr
    pure (.ofResult result)
  | .runOnce definition context index =>
    Exchange.runOnce definition context (index.map (Exchange.position slot))
  | .stored name => do
    let name ← Exchange.resolve name
    let env ← Exchange.inspect
    pure (.stored (env.stored.get? name))
  | .invalidate name => do
    let name ← Exchange.resolve name
    let env ← Exchange.inspect
    if env.dependencies.contains name then
      let invalidated ← Dialogue.request (.notify name)
      pure (.invalidated invalidated)
    else pure (.failed (.error (.unknownDependency name)))
  | .notify name => do
    let name ← Exchange.resolve name
    let invalidated ← Dialogue.request (.notify name)
    pure (.invalidated invalidated)
  | .status name index =>
    Exchange.ofDependency name fun _ dependency =>
      .status (Exchange.statusOf (index.map (Exchange.position slot)) dependency)
  | .readers name => do
    let name ← Exchange.resolve name
    let env ← Exchange.inspect
    pure (.readers (env.readersOf name))
  | .source name =>
    Exchange.ofDependency name fun _ dependency => .source (dependency.bind (·.source))
  | .recomputes name =>
    Exchange.ofDependency name fun _ dependency => .recomputes (dependency.map (·.recomputes))
  | .contains name => Exchange.ofDependency name fun _ dependency => .contains dependency.isSome
  | .names => do
    let env ← Exchange.inspect
    pure (.names env.dependencies.keys)
  | .config => do
    let env ← Exchange.inspect
    pure (.config env.config)
  | .items => do
    let env ← Exchange.inspect
    pure (.items env.items)
  | .dependency name =>
    Exchange.ofDependency name <| Exchange.known fun name dependency =>
      .dependency (dependency.view name) dependency.reads dependency.source
  | .describe name =>
    Exchange.ofDependency name <| Exchange.known fun name dependency =>
      .description (dependency.describe name)
  | .sleep milliseconds => pure (.slept milliseconds)
  | .several reads => do
    let answers ← Exchange.readAll slot reads
    pure (.several answers)
  | .refused failure => pure (.failed failure)

/-- Takes steps one after the other and notes their answers. -/
def noteAll (slot : Int64) : List Step → Exchange Unit
  | [] => pure ()
  | step :: steps => do
    let answer ← step.dialogue slot
    Dialogue.request (.note answer)
    noteAll slot steps

end Step

def Fault.error (context : ContextPath) : Fault → Error
  | .length => .length .native
  | .type => .type .native
  | .domain => .domain .native
  | .index => .index (-7) 3
  | .undefined => .undefinedVariable (qualify context "native")

/-- The value that a verdict gives a script that runs for an index, if it runs for one. -/
def Verdict.dialogue (verdict : Verdict) (index : Option Int64) :
    Exchange (Except Error Value) := do
  match verdict.fault, verdict.multiple, index with
  | some fault, _, _ =>
    let env ← Exchange.inspect
    pure (.error (fault.error env.context))
  | none, some factor, some position => pure ((Value.int position).multiply (.int factor))
  | none, _, _ =>
    match verdict.expr with
    | some expr => Exchange.eval expr
    | none => pure (.error .malformedDefinition)

/-- What a procedure does when it is started for a slot. -/
def Procedure.dialogue : Meaning Procedure
  | .compiled resolution body, index => body.dialogue resolution index
  | .script steps verdict, index => do
    Step.noteAll (index.getD 0) steps
    verdict.dialogue index

end Memograph
