import Memograph.Dialogue

/-! Evaluating expressions. An evaluation is a dialogue: it asks its environment for the variables
it reads and tells it of those it assigns, while the locals of the run stay with it. The right
operand of an operation is evaluated before the left one, and an index before its target. -/

namespace Memograph

/-- A part of a run: it has the locals of the run, can fail, and asks the environment. -/
abbrev Body (π : Type) := StateT (Table String Value) (ExceptT Error (Dialogue π))

namespace Body

variable {π : Type}

def ask (request : Request π) : Body π request.Reply :=
  StateT.lift (ExceptT.lift (.request request))

/-- Asks the environment for a value that it may fail to give. -/
def value (dialogue : Dialogue π (Except Error Value)) : Body π Value :=
  StateT.lift (ExceptT.mk dialogue)

def ofExcept {α : Type} (result : Except Error α) : Body π α :=
  StateT.lift (ExceptT.mk (.done result))

def read (resolution : Resolution) (written : String) : Body π Value :=
  match resolution.resolve written with
  | .global name => value (.request (.read name none))
  | .indexer | .localName => do
    match (← get).get? written with
    | some value => pure value
    | none => throw (.undefinedVariable (qualify resolution.context written))

/-- Gives a name a value. A body that assigns the variable it defines writes the stored value only;
any other variable has its readers invalidated. -/
def assign (resolution : Resolution) (written : String) (value : Value) : Body π Unit :=
  match resolution.resolve written with
  | .global name =>
    if resolution.owner = some name then ask (.store name value)
    else do
      let _ ← ask (.assign name value)
  | .indexer | .localName => modify fun locals => locals.insert written value

end Body

namespace Expr

variable {π : Type}

/-- The variable that an expression is, if it is the name of one. -/
def globalName? (resolution : Resolution) : Expr → Option QualifiedName
  | .name written =>
    match resolution.resolve written with
    | .global qualified => some qualified
    | .indexer | .localName => none
  | _ => none

mutual

/-- Evaluates an expression whose names are bound. The item of a variable is asked for as an item,
so that an itemwise dependency computes no other. -/
def evaluate (resolution : Resolution) : Expr → Body π Value
  | .constant value => pure value
  | .name written => Body.read resolution written
  | .vector items => do
    let values ← evaluateAll resolution items
    pure (.array values)
  | .item target index => do
    let index ← evaluate resolution index
    let position ← Body.ofExcept index.asIndex
    match globalName? resolution target with
    | some qualified => Body.value (.request (.read qualified (some position)))
    | none => do
      let value ← evaluate resolution target
      Body.ofExcept (value.select position)
  | .unary op operand => do
    let operand ← evaluate resolution operand
    Body.ofExcept (op.apply operand)
  | .binary op left right => do
    let right ← evaluate resolution right
    let left ← evaluate resolution left
    Body.ofExcept (op.apply left right)
  | .assign written value => do
    let value ← evaluate resolution value
    Body.assign resolution written value
    pure value
  | .sequence statements => evaluateSequence resolution (.array []) statements

/-- Evaluates expressions from the first to the last. -/
def evaluateAll (resolution : Resolution) : List Expr → Body π (List Value)
  | [] => pure []
  | first :: rest => do
    let value ← evaluate resolution first
    let values ← evaluateAll resolution rest
    pure (value :: values)

/-- Evaluates statements from the first to the last; the value is that of the last one. -/
def evaluateSequence (resolution : Resolution) (last : Value) : List Expr → Body π Value
  | [] => pure last
  | statement :: statements => do
    let value ← evaluate resolution statement
    evaluateSequence resolution value statements

end

/-- The locals that a run starts with: the indexer, where there is one and an index for it. -/
def initialLocals (resolution : Resolution) (index : Option Int64) : Table String Value :=
  match resolution.indexer, index with
  | some indexer, some position => (∅ : Table String Value).insert indexer (.int position)
  | _, _ => ∅

/-- One run of an expression, for an index if there is one. -/
def dialogue (resolution : Resolution) (body : Expr) (index : Option Int64) :
    Dialogue π (Except Error Value) :=
  ((evaluate resolution body).run' (initialLocals resolution index)).run

end Expr
end Memograph
