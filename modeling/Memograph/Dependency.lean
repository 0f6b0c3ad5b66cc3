import Memograph.Resolution

/-! Dependencies: variables that are recomputed on demand. A dependency keeps its values in slots,
one of them if it is scalar and one for each index if it is itemwise. A slot that is not there has
no value yet. Invalidating a dependency takes the values of its slots away, leaves those that are
being recomputed marked, and moves its epoch on, so that a recompute that began before does not
keep its result. Epochs are told apart by their low sixty-four bits. -/

namespace Memograph

/-- Whether a dependency has one value or one for each index. -/
inductive Shape where
  | scalar
  | itemwise
  deriving DecidableEq, Repr

inductive Mark where
  | uninitialized
  | evaluating
  | valid
  deriving DecidableEq, Repr

/-- A slot, its mark and the value that it holds, if any. Marks and values are set apart from each
other; that they go together is a property of the runs. -/
structure Slot where
  mark : Mark
  cached : Option Value

/-- What a read finds in a slot. -/
inductive Status where
  | uninitialized
  | evaluating
  | valid (value : Value)

namespace Slot

/-- A slot in which nothing has happened. -/
def fresh : Slot := ⟨.uninitialized, none⟩

/-- What a read finds in a slot. A slot that is marked valid and holds no value is read like one
that is not. -/
def status : Slot → Status
  | ⟨.evaluating, _⟩ => .evaluating
  | ⟨.valid, some value⟩ => .valid value
  | _ => .uninitialized

/-- Whether a slot is being recomputed. -/
def isRunning (slot : Slot) : Bool := slot.mark == .evaluating

/-- Takes the value away. A mark that says that the slot is being recomputed stays. -/
def clear (slot : Slot) : Slot :=
  match slot.mark with
  | .valid => ⟨.uninitialized, none⟩
  | mark => ⟨mark, none⟩

theorem status_eq_evaluating_iff (slot : Slot) :
    slot.status = .evaluating ↔ slot.isRunning = true := by
  rcases slot with ⟨_ | _ | _, _ | _⟩ <;> simp [status, isRunning]

theorem status_clear (slot : Slot) :
    slot.clear.status = if slot.isRunning then .evaluating else .uninitialized := by
  rcases slot with ⟨_ | _ | _, cached⟩ <;> rfl

end Slot

def Status.value? : Status → Option Value
  | .valid value => some value
  | _ => none

/-- How a variable is to be computed, before it is registered. -/
structure Registration (π : Type) where
  shape : Shape
  reads : List QualifiedName
  procedure : π
  source : Option String

/-- A registered variable, its procedure and its slots. The slot of a scalar dependency has no
index. -/
structure Dependency (π : Type) extends Registration π where
  /-- Tells the dependency from every other one that was ever registered. -/
  serial : Nat
  slots : Table (Option Int64) Slot
  /-- How many times it was invalidated. -/
  epoch : Nat
  /-- How many times the procedure was started. -/
  recomputes : UInt64

namespace Dependency

variable {π : Type}

/-- A dependency that was never read. -/
def ofRegistration (serial : Nat) (registration : Registration π) : Dependency π :=
  { registration with serial, slots := ∅, epoch := 0, recomputes := 0 }

/-- The slot of an index, whether or not it was ever read. -/
def slotAt (dependency : Dependency π) (index : Option Int64) : Slot :=
  (dependency.slots.get? index).getD .fresh

def status (dependency : Dependency π) (index : Option Int64) : Status :=
  (dependency.slotAt index).status

def inFlight (dependency : Dependency π) : Bool := dependency.slots.values.any Slot.isRunning

/-- Marks a slot as being recomputed. -/
def start (dependency : Dependency π) (index : Option Int64) : Dependency π :=
  { dependency with
    slots := dependency.slots.insert index { dependency.slotAt index with mark := .evaluating }
    recomputes := dependency.recomputes + 1 }

/-- Whether two epochs have the same low sixty-four bits. -/
def sameEpoch (epoch began : Nat) : Bool := epoch % UInt64.size == began % UInt64.size

/-- Ends the recompute of a slot that began in an epoch. The slot keeps the value if there is one
and the epoch is still the same, and is emptied otherwise. -/
def finish (dependency : Dependency π) (index : Option Int64) (began : Nat)
    (result : Except Error Value) : Dependency π :=
  match result with
  | .ok value =>
    if sameEpoch dependency.epoch began then
      { dependency with slots := dependency.slots.insert index ⟨.valid, some value⟩ }
    else { dependency with slots := dependency.slots.erase index }
  | .error _ => { dependency with slots := dependency.slots.erase index }

/-- Drops every value. The slot of a scalar dependency stays; those of an itemwise one go, but for
the ones that are being recomputed. -/
def invalidate (dependency : Dependency π) : Dependency π :=
  { dependency with
    slots := match dependency.shape with
      | .scalar => dependency.slots.mapValues Slot.clear
      | .itemwise => dependency.slots.filterValues Slot.isRunning
    epoch := dependency.epoch + 1 }

/-- The indices of the slots that have a value, with their values, in ascending order. -/
def validSlots (dependency : Dependency π) : List (Int64 × Value) :=
  let valid := dependency.slots.entries.filterMap fun
    | (some index, slot) => slot.status.value?.map fun value => (index, value)
    | _ => none
  valid.mergeSort fun a b => decide (a.1 ≤ b.1)

end Dependency

/-- The values of a dependency as they can be seen from outside. -/
inductive CacheView where
  | scalar (status : Status)
  | itemwise (valid : List (Int64 × Value))

/-- A dependency as it can be seen from outside. -/
structure ItemView where
  name : QualifiedName
  cache : CacheView
  recomputes : UInt64

/-- The view of a dependency that is registered under a name. -/
def Dependency.view {π : Type} (dependency : Dependency π) (name : QualifiedName) : ItemView :=
  { name
    cache := match dependency.shape with
      | .scalar => .scalar (dependency.status none)
      | .itemwise => .itemwise dependency.validSlots
    recomputes := dependency.recomputes }

end Memograph
