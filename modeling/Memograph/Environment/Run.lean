import Memograph.Dialogue

/-! Environments in dialogue with procedures. Reading a dependency whose slot has a value replies
with it. Otherwise its procedure is run, on the same environment, and the slot keeps the value
unless it was invalidated in between. Reading a slot that is being recomputed is a cycle. How deep
recomputes nest is bounded only to have every run end; the bound lies beyond any nesting in which
no slot comes twice. -/

namespace Memograph.Environment

variable {π α : Type}

/-- Runs a dialogue from an environment to its result and the environment after it. There is no
result where recomputes nest too deep. -/
abbrev Runner (π α : Type) := Dialogue π α → Environment π → Option (α × Environment π)

/-- The value of a slot of a dependency: what the slot holds, or what its procedure gives now. -/
def compute (run : Runner π (Except Error Value)) (meaning : Meaning π) (name : QualifiedName)
    (dependency : Dependency π) (index : Option Int64) (env : Environment π) :
    Option (Except Error Value × Environment π) :=
  match dependency.status index with
  | .valid value => some (.ok value, env)
  | .evaluating => some (.error (.circularDependency name (env.chain name index)), env)
  | .uninitialized =>
    match run (meaning dependency.procedure index) (env.start name dependency index) with
    | none => none
    | some (result, after) =>
      some (result, after.finish name dependency.serial dependency.epoch index result)

/-- The value of a registered dependency, or of one of its items. An itemwise dependency has to be
read with an index; a scalar one is computed whole, and then the item is selected. -/
def evaluate (run : Runner π (Except Error Value)) (meaning : Meaning π) (name : QualifiedName)
    (index : Option Int64) (env : Environment π) : Option (Except Error Value × Environment π) :=
  match env.dependencies.get? name with
  | none => some (.error (.unknownDependency name), env)
  | some dependency =>
    match dependency.shape, index with
    | .scalar, none => compute run meaning name dependency none env
    | .scalar, some position =>
      (compute run meaning name dependency none env).map fun (result, after) =>
        (result.bind fun value => value.select position, after)
    | .itemwise, none => some (.error (.indexRequired name), env)
    | .itemwise, some position => compute run meaning name dependency (some position) env

def readStored (env : Environment π) (name : QualifiedName) (index : Option Int64) :
    Except Error Value :=
  match env.stored.get? name, index with
  | none, _ => .error (.undefinedVariable name)
  | some value, none => .ok value
  | some value, some position => value.select position

/-- The value of a variable, or of one of its items: that of its dependency, or the stored one. -/
def read (run : Runner π (Except Error Value)) (meaning : Meaning π) (name : QualifiedName)
    (index : Option Int64) (env : Environment π) : Option (Except Error Value × Environment π) :=
  if env.dependencies.contains name then evaluate run meaning name index env
  else some (env.readStored name index, env)

def respond (run : Runner π (Except Error Value)) (meaning : Meaning π) :
    (request : Request π) → Environment π → Option (request.Reply × Environment π)
  | .read name index, env => env.read run meaning name index
  | .evaluate name index, env => env.evaluate run meaning name index
  | .assign name value, env => some (env.assign name value)
  | .store name value, env => some ((), env.store name value)
  | .notify name, env => some (env.notify name)
  | .register name registration, env => some (env.register name registration)
  | .enter context, env => some ((), { env with context })
  | .inspect, env => some (env, env)
  | .note answer, env => some ((), { env with journal := env.journal ++ [answer] })

/-- Holds a dialogue, with given replies to its requests. -/
def converse
    (respond : (request : Request π) → Environment π → Option (request.Reply × Environment π)) :
    Runner π α
  | .done result, env => some (result, env)
  | .ask request next, env =>
    match respond request env with
    | none => none
    | some (reply, after) => converse respond (next reply) after

/-- Runs a dialogue with recomputes nested at most `depth` deep. -/
def runWithin (meaning : Meaning π) : (depth : Nat) → {α : Type} → Runner π α
  | 0, _ => converse (respond (fun _ _ => none) meaning)
  | depth + 1, _ => converse (respond (runWithin meaning depth) meaning)

/-- How deep recomputes may nest. A slot that is being recomputed is not started again, a scalar
dependency has one slot and an itemwise one at most `2 ^ 64`; so without registrations on the way
no recompute reaches this depth. -/
def depthLimit (env : Environment π) : Nat := UInt64.size * (env.dependencies.size + 1)

def run (meaning : Meaning π) (dialogue : Dialogue π α) (env : Environment π) :
    Option (α × Environment π) :=
  runWithin meaning env.depthLimit dialogue env

end Memograph.Environment
