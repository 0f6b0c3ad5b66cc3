import Memograph.Answer

/-! Environments: the store of plain values, the registered dependencies, the index of who reads
what, and the recomputes that are running. Nothing here runs a procedure; these are the steps in
between. -/

namespace Memograph

/-- A running recompute: the dependency, the name it was read under, and its slot. -/
structure Frame where
  serial : Nat
  name : QualifiedName
  index : Option Int64
  deriving DecidableEq, Repr

/-- Everything that a session has: `π` is what procedures are written in. -/
structure Environment (π : Type) where
  config : Config
  context : ContextPath
  /-- The values that were assigned. -/
  stored : Table QualifiedName Value
  dependencies : Table QualifiedName (Dependency π)
  /-- Dependencies whose name was given to another while a recompute of theirs was running. -/
  superseded : List (Dependency π)
  /-- For each name, the dependencies that read it. -/
  readers : Table QualifiedName (List QualifiedName)
  /-- The running recomputes, innermost first. -/
  stack : List Frame
  /-- How many dependencies were ever registered. -/
  registrations : Nat
  /-- What procedures noted, oldest first. -/
  journal : List Answer

namespace Environment

variable {π : Type}

/-- The environment in which nothing has happened. -/
def initial (config : Config) (context : ContextPath) : Environment π :=
  { config, context, stored := ∅, dependencies := ∅, superseded := [], readers := ∅, stack := []
    registrations := 0, journal := [] }

/-- The views of all dependencies, in the order of their first registration. -/
def items (env : Environment π) : List ItemView :=
  env.dependencies.entries.map fun entry => entry.2.view entry.1

/-- The dependencies that read a name, in the order of their registration. -/
def readersOf (env : Environment π) (name : QualifiedName) : List QualifiedName :=
  (env.readers.get? name).getD []

/-- Sets the stored value of a variable and tells nobody. -/
def store (env : Environment π) (name : QualifiedName) (value : Value) : Environment π :=
  { env with stored := env.stored.insert name value }

/-! ### Invalidation -/

/-- Visits the names of a queue and, behind them, those that read them, each name once and only if
it is among those still to be visited. No more names are visited than the bound says. -/
def visit (readersOf : QualifiedName → List QualifiedName) :
    (bound : Nat) → (pending queue : List QualifiedName) → List QualifiedName
  | 0, _, _ => []
  | bound + 1, pending, queue =>
    match queue.dropWhile fun name => decide (name ∉ pending) with
    | [] => []
    | name :: queue =>
      name :: visit readersOf bound (pending.erase name) (queue ++ readersOf name)

/-- The names that read a name, directly or through others, nearest first and the name itself
before all. -/
def reached (env : Environment π) (name : QualifiedName) : List QualifiedName :=
  let names := (name :: env.readers.values.flatten).eraseDups
  visit env.readersOf names.length names [name]

def invalidateOne (env : Environment π) (name : QualifiedName) : Environment π :=
  match env.dependencies.get? name with
  | none => env
  | some dependency =>
    { env with dependencies := env.dependencies.insert name dependency.invalidate }

/-- Invalidates the dependency of a name, if it has one, and all that read it, directly or through
others. The answer lists them in the order in which they were reached. -/
def notify (env : Environment π) (name : QualifiedName) : List QualifiedName × Environment π :=
  let invalidated := (env.reached name).filter env.dependencies.contains
  (invalidated, invalidated.foldl invalidateOne env)

/-- Sets the stored value of a variable and invalidates all that read it. -/
def assign (env : Environment π) (name : QualifiedName) (value : Value) :
    List QualifiedName × Environment π :=
  (env.store name value).notify name

/-! ### Registration -/

def dropReads (readers : Table QualifiedName (List QualifiedName)) (reader : QualifiedName)
    (reads : List QualifiedName) : Table QualifiedName (List QualifiedName) :=
  reads.foldl (fun readers read =>
    match readers.get? read with
    | none => readers
    | some names => readers.insert read (names.filter (· ≠ reader))) readers

/-- Adds a reader behind the others of each of the names it reads. -/
def addReads (readers : Table QualifiedName (List QualifiedName)) (reader : QualifiedName)
    (reads : List QualifiedName) : Table QualifiedName (List QualifiedName) :=
  reads.foldl (fun readers read =>
    readers.alter read fun names =>
      let names := names.getD []
      if reader ∈ names then names else names ++ [reader]) readers

/-- Registers a dependency under a name. A name that is taken is an error or, where the
configuration allows it, passes to the new dependency, which invalidates all that read the
name. -/
def register (env : Environment π) (name : QualifiedName) (registration : Registration π) :
    Except Error Unit × Environment π :=
  let dependency := Dependency.ofRegistration env.registrations registration
  match env.dependencies.get? name with
  | none =>
    (.ok (), { env with
      dependencies := env.dependencies.insert name dependency
      readers := addReads env.readers name registration.reads
      registrations := env.registrations + 1 })
  | some old =>
    match env.config.redefinition with
    | .reject => (.error (.redefinitionConflict name), env)
    | .replace =>
      let env := { env with
        dependencies := env.dependencies.insert name dependency
        superseded := if old.inFlight then env.superseded ++ [old] else env.superseded
        readers := addReads (dropReads env.readers name old.reads) name registration.reads
        registrations := env.registrations + 1 }
      (.ok (), (env.notify name).2)

/-! ### Recomputes -/

def start (env : Environment π) (name : QualifiedName) (dependency : Dependency π)
    (index : Option Int64) : Environment π :=
  { env with
    dependencies := env.dependencies.insert name (dependency.start index)
    stack := ⟨dependency.serial, name, index⟩ :: env.stack }

/-- Ends the innermost recompute, of a slot of the dependency with a serial number, that began in
an epoch. A dependency that lost its name meanwhile is kept only while it has other recomputes
running. -/
def finish (env : Environment π) (name : QualifiedName) (serial began : Nat)
    (index : Option Int64) (result : Except Error Value) : Environment π :=
  let env := { env with stack := env.stack.tail }
  let ended (dependency : Dependency π) := dependency.finish index began result
  match env.dependencies.get? name with
  | some dependency =>
    if dependency.serial = serial then
      { env with dependencies := env.dependencies.insert name (ended dependency) }
    else
      { env with superseded := (env.superseded.map fun old =>
          if old.serial = serial then ended old else old).filter Dependency.inFlight }
  | none => env

/-- The names of the running recomputes, from the innermost one of a slot inwards, and the name of
the slot once more, or that name alone if no recompute of the slot is running. -/
def chain (env : Environment π) (name : QualifiedName) (index : Option Int64) :
    List QualifiedName :=
  let inner := env.stack.takeWhile fun frame => !(frame.name == name && frame.index == index)
  let around :=
    if inner.length < env.stack.length then name :: (inner.map Frame.name).reverse else []
  around ++ [name]

end Environment
end Memograph
