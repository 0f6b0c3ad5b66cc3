import Memograph.Environment.Run
import Memograph.Proofs.Registration

/-! The slots of an environment and how the steps of a run move them. A recompute marks its slot
when it starts and gives it a value or empties it when it ends; a cascade empties what it reaches
and moves its epochs on; every other slot stays as it is. Reading is taken apart into the cases
that it can end in. -/

namespace Memograph

variable {π : Type}

/-- The slot that an index means: the only one of a scalar dependency, whatever the index. -/
def Shape.slot? : Shape → Option Int64 → Option (Option Int64)
  | .scalar, _ => some none
  | .itemwise, none => none
  | .itemwise, some position => some (some position)

/-- The part of a slot's value that is read with an index: an item of the value where the slot has
no index itself. -/
def Shape.part : Shape → Option Int64 → Value → Except Error Value
  | .scalar, some position, value => value.select position
  | _, _, value => .ok value

namespace Environment

/-- What is known of a slot of a name; nothing if the name has no dependency. -/
def statusOf (env : Environment π) (name : QualifiedName) (index : Option Int64) : Status :=
  match env.dependencies.get? name with
  | none => .uninitialized
  | some dependency => dependency.status index

/-- How many times the dependency of a name was invalidated. -/
def epochOf (env : Environment π) (name : QualifiedName) : Nat :=
  match env.dependencies.get? name with
  | none => 0
  | some dependency => dependency.epoch

def shapeOf (env : Environment π) (name : QualifiedName) : Option Shape :=
  (env.dependencies.get? name).map fun dependency => dependency.shape

theorem shapeOf_of_get? {env : Environment π} {name : QualifiedName} {dependency : Dependency π}
    (h : env.dependencies.get? name = some dependency) :
    env.shapeOf name = some dependency.shape := by
  rw [shapeOf, h, Option.map_some]

theorem statusOf_of_get? {env : Environment π} {name : QualifiedName} {dependency : Dependency π}
    (h : env.dependencies.get? name = some dependency) (index : Option Int64) :
    env.statusOf name index = dependency.status index := by
  rw [statusOf, h]

theorem epochOf_of_get? {env : Environment π} {name : QualifiedName} {dependency : Dependency π}
    (h : env.dependencies.get? name = some dependency) : env.epochOf name = dependency.epoch := by
  rw [epochOf, h]

theorem get?_isSome_of_statusOf {env : Environment π} {name : QualifiedName}
    {index : Option Int64} (h : env.statusOf name index ≠ .uninitialized) :
    ∃ dependency, env.dependencies.get? name = some dependency := by
  unfold statusOf at h
  cases hname : env.dependencies.get? name with
  | none => simp [hname] at h
  | some dependency => exact ⟨dependency, rfl⟩

theorem statusOf_congr {env after : Environment π} {name : QualifiedName}
    (h : after.dependencies.get? name = env.dependencies.get? name) :
    after.statusOf name = env.statusOf name := by
  funext index
  rw [statusOf, statusOf, h]

theorem epochOf_congr {env after : Environment π} {name : QualifiedName}
    (h : after.dependencies.get? name = env.dependencies.get? name) :
    after.epochOf name = env.epochOf name := by
  rw [epochOf, epochOf, h]

end Environment

namespace Dependency

/-- What a dependency has from its registration on. -/
def signature (dependency : Dependency π) : Registration π × Nat :=
  (dependency.toRegistration, dependency.serial)

theorem slotAt_start (dependency : Dependency π) (slot index : Option Int64) :
    (dependency.start slot).slotAt index =
      if index = slot then { dependency.slotAt slot with mark := .evaluating }
      else dependency.slotAt index := by
  rw [slotAt, start, Table.get?_insert]
  split <;> rfl

theorem status_start (dependency : Dependency π) (slot index : Option Int64) :
    (dependency.start slot).status index =
      if index = slot then .evaluating else dependency.status index := by
  rw [status, status, slotAt_start]
  split
  · exact (Slot.status_eq_evaluating_iff _).mpr rfl
  · rfl

/-- A finished slot has the value of a success that no invalidation overtook. -/
theorem slotAt_finish (dependency : Dependency π) (slot index : Option Int64) (began : Nat)
    (result : Except Error Value) :
    (dependency.finish slot began result).slotAt index =
      if index = slot then
        match result with
        | .ok value => if sameEpoch dependency.epoch began then ⟨.valid, some value⟩ else .fresh
        | .error _ => .fresh
      else dependency.slotAt index := by
  unfold slotAt finish
  cases result with
  | error cause =>
      dsimp only
      rw [Table.get?_erase]
      split <;> rfl
  | ok value =>
      dsimp only
      by_cases hepoch : sameEpoch dependency.epoch began = true
      · rw [if_pos hepoch, if_pos hepoch, Table.get?_insert]
        split <;> rfl
      · rw [if_neg hepoch, if_neg hepoch, Table.get?_erase]
        split <;> rfl

theorem status_finish (dependency : Dependency π) (slot index : Option Int64) (began : Nat)
    (result : Except Error Value) :
    (dependency.finish slot began result).status index =
      if index = slot then
        match result with
        | .ok value => if sameEpoch dependency.epoch began then .valid value else .uninitialized
        | .error _ => .uninitialized
      else dependency.status index := by
  rw [status, status, slotAt_finish]
  by_cases hslot : index = slot
  · rw [if_pos hslot, if_pos hslot]
    cases result with
    | error cause => rfl
    | ok value =>
        dsimp only
        split <;> rfl
  · rw [if_neg hslot, if_neg hslot]

theorem epoch_start (dependency : Dependency π) (slot : Option Int64) :
    (dependency.start slot).epoch = dependency.epoch := rfl

theorem signature_finish (dependency : Dependency π) (slot : Option Int64) (began : Nat)
    (result : Except Error Value) :
    (dependency.finish slot began result).signature = dependency.signature := by
  unfold finish
  split
  · split <;> rfl
  · rfl

theorem epoch_finish (dependency : Dependency π) (slot : Option Int64) (began : Nat)
    (result : Except Error Value) :
    (dependency.finish slot began result).epoch = dependency.epoch := by
  unfold finish
  split
  · split <;> rfl
  · rfl

end Dependency

namespace Environment

/-! ### Steps of a run -/

theorem get?_start (env : Environment π) (name : QualifiedName) (dependency : Dependency π)
    (slot : Option Int64) (key : QualifiedName) :
    (env.start name dependency slot).dependencies.get? key =
      if key = name then some (dependency.start slot) else env.dependencies.get? key :=
  Table.get?_insert _ _ _ _

theorem finish_eq {env : Environment π} {name : QualifiedName} {dependency : Dependency π}
    (h : env.dependencies.get? name = some dependency) (slot : Option Int64) (began : Nat)
    (result : Except Error Value) :
    env.finish name dependency.serial began slot result =
      { env with
        stack := env.stack.tail
        dependencies := env.dependencies.insert name (dependency.finish slot began result) } := by
  unfold finish
  simp only [h, if_true]

theorem statusOf_start {env : Environment π} {name : QualifiedName} {dependency : Dependency π}
    (h : env.dependencies.get? name = some dependency) (slot : Option Int64) (key : QualifiedName)
    (index : Option Int64) :
    (env.start name dependency slot).statusOf key index =
      if key = name ∧ index = slot then .evaluating else env.statusOf key index := by
  unfold statusOf
  rw [get?_start]
  by_cases hkey : key = name
  · subst hkey
    rw [if_pos rfl, h]
    simp only [Dependency.status_start, true_and]
  · rw [if_neg hkey, if_neg fun hboth => hkey hboth.1]

theorem epochOf_start {env : Environment π} {name : QualifiedName} {dependency : Dependency π}
    (h : env.dependencies.get? name = some dependency) (slot : Option Int64)
    (key : QualifiedName) : (env.start name dependency slot).epochOf key = env.epochOf key := by
  unfold epochOf
  rw [get?_start]
  by_cases hkey : key = name
  · subst hkey
    rw [if_pos rfl, h]
    exact dependency.epoch_start slot
  · rw [if_neg hkey]

theorem get?_finish {env : Environment π} {name : QualifiedName} {dependency : Dependency π}
    (h : env.dependencies.get? name = some dependency) (slot : Option Int64) (began : Nat)
    (result : Except Error Value) (key : QualifiedName) :
    (env.finish name dependency.serial began slot result).dependencies.get? key =
      if key = name then some (dependency.finish slot began result)
      else env.dependencies.get? key := by
  rw [finish_eq h]
  exact Table.get?_insert _ _ _ _

theorem statusOf_finish {env : Environment π} {name : QualifiedName} {dependency : Dependency π}
    (h : env.dependencies.get? name = some dependency) (slot : Option Int64) (began : Nat)
    (result : Except Error Value) (key : QualifiedName) (index : Option Int64) :
    (env.finish name dependency.serial began slot result).statusOf key index =
      if key = name ∧ index = slot then
        match result with
        | .ok value => if Dependency.sameEpoch dependency.epoch began then .valid value
            else .uninitialized
        | .error _ => .uninitialized
      else env.statusOf key index := by
  unfold statusOf
  rw [get?_finish h]
  by_cases hkey : key = name
  · subst hkey
    rw [if_pos rfl, h]
    simp only [Dependency.status_finish, true_and]
  · rw [if_neg hkey, if_neg fun hboth => hkey hboth.1]

theorem epochOf_finish {env : Environment π} {name : QualifiedName} {dependency : Dependency π}
    (h : env.dependencies.get? name = some dependency) (slot : Option Int64) (began : Nat)
    (result : Except Error Value) (key : QualifiedName) :
    (env.finish name dependency.serial began slot result).epochOf key = env.epochOf key := by
  unfold epochOf
  rw [get?_finish h]
  by_cases hkey : key = name
  · subst hkey
    rw [if_pos rfl, h]
    exact dependency.epoch_finish slot began result
  · rw [if_neg hkey]

theorem evaluating_start_iff {env : Environment π} {name : QualifiedName}
    {dependency : Dependency π} (h : env.dependencies.get? name = some dependency)
    (slot : Option Int64) (key : QualifiedName) (index : Option Int64) :
    (env.start name dependency slot).statusOf key index = .evaluating ↔
      key = name ∧ index = slot ∨ env.statusOf key index = .evaluating := by
  rw [statusOf_start h]
  split
  · next hslot => simp [hslot]
  · next hslot => simp [hslot]

theorem evaluating_finish_iff {env : Environment π} {name : QualifiedName}
    {dependency : Dependency π} (h : env.dependencies.get? name = some dependency)
    (slot : Option Int64) (began : Nat) (result : Except Error Value) (key : QualifiedName)
    (index : Option Int64) :
    (env.finish name dependency.serial began slot result).statusOf key index = .evaluating ↔
      ¬(key = name ∧ index = slot) ∧ env.statusOf key index = .evaluating := by
  rw [statusOf_finish h]
  by_cases hslot : key = name ∧ index = slot
  · rw [if_pos hslot]
    cases result with
    | error cause => simp [hslot]
    | ok value =>
        dsimp only
        split <;> simp [hslot]
  · rw [if_neg hslot, and_iff_right hslot]

theorem statusOf_notify_of_not_reaches (env : Environment π) {name reader : QualifiedName}
    (h : ¬env.Reaches name reader) :
    (env.notify name).2.statusOf reader = env.statusOf reader :=
  statusOf_congr (notify_get?_of_not_reaches env h)

theorem epochOf_notify_of_not_reaches (env : Environment π) {name reader : QualifiedName}
    (h : ¬env.Reaches name reader) :
    (env.notify name).2.epochOf reader = env.epochOf reader :=
  epochOf_congr (notify_get?_of_not_reaches env h)

theorem statusOf_notify_of_reaches (env : Environment π) {name reader : QualifiedName}
    (h : env.Reaches name reader) (index : Option Int64) :
    (env.notify name).2.statusOf reader index =
      match env.statusOf reader index with
      | .evaluating => .evaluating
      | _ => .uninitialized := by
  unfold statusOf
  rw [notify_get?_of_reaches env h]
  cases env.dependencies.get? reader with
  | none => rfl
  | some dependency => exact dependency.status_invalidate index

/-- A cascade neither starts nor ends recomputes. -/
theorem evaluating_notify_iff (env : Environment π) (name key : QualifiedName)
    (index : Option Int64) :
    (env.notify name).2.statusOf key index = .evaluating ↔
      env.statusOf key index = .evaluating := by
  by_cases hreaches : env.Reaches name key
  · rw [statusOf_notify_of_reaches env hreaches]
    split
    · next hstatus => simp [hstatus]
    · next hstatus => simpa using hstatus
  · rw [statusOf_notify_of_not_reaches env hreaches]

/-- A cascade leaves no values but where it does not reach. -/
theorem valid_of_notify (env : Environment π) {name key : QualifiedName} {slot : Option Int64}
    {value : Value} (h : (env.notify name).2.statusOf key slot = .valid value) :
    ¬env.Reaches name key ∧ env.statusOf key slot = .valid value := by
  by_cases hreaches : env.Reaches name key
  · rw [statusOf_notify_of_reaches env hreaches] at h
    split at h <;> cases h
  · rw [statusOf_notify_of_not_reaches env hreaches] at h
    exact ⟨hreaches, h⟩

theorem epochOf_notify_of_reaches (env : Environment π) {name reader : QualifiedName}
    {dependency : Dependency π} (h : env.Reaches name reader)
    (hreader : env.dependencies.get? reader = some dependency) :
    (env.notify name).2.epochOf reader = env.epochOf reader + 1 := by
  unfold epochOf
  rw [notify_get?_of_reaches env h, hreader]
  rfl

theorem signature_notify (env : Environment π) (name key : QualifiedName) :
    ((env.notify name).2.dependencies.get? key).map Dependency.signature =
      (env.dependencies.get? key).map Dependency.signature := by
  by_cases h : env.Reaches name key
  · rw [notify_get?_of_reaches env h, Option.map_map]
    rfl
  · rw [notify_get?_of_not_reaches env h]

/-! ### Reading -/

variable {run : Runner π (Except Error Value)} {meaning : Meaning π}

theorem read_of_unregistered {name : QualifiedName} {env : Environment π}
    (h : env.dependencies.get? name = none) (index : Option Int64) :
    env.read run meaning name index = some (env.readStored name index, env) := by
  rw [read, Table.contains, h]
  rfl

/-- A registered dependency is evaluated as it is read. -/
theorem evaluate_eq_read {name : QualifiedName} {env : Environment π} {dependency : Dependency π}
    (h : env.dependencies.get? name = some dependency) (run : Runner π (Except Error Value))
    (index : Option Int64) :
    env.evaluate run meaning name index = env.read run meaning name index := by
  rw [read, Table.contains, h, Option.isSome_some, if_pos rfl]

theorem read_of_unindexed {name : QualifiedName} {env : Environment π}
    {dependency : Dependency π} {index : Option Int64}
    (h : env.dependencies.get? name = some dependency)
    (hslot : dependency.shape.slot? index = none) :
    env.read run meaning name index = some (.error (.indexRequired name), env) := by
  rw [read, Table.contains, h, Option.isSome_some, if_pos rfl, evaluate, h]
  dsimp only
  cases hshape : dependency.shape with
  | scalar => simp [hshape, Shape.slot?] at hslot
  | itemwise =>
      cases index with
      | none => rfl
      | some position => simp [hshape, Shape.slot?] at hslot

theorem read_of_slot? {name : QualifiedName} {env : Environment π} {dependency : Dependency π}
    {index slot : Option Int64} (h : env.dependencies.get? name = some dependency)
    (hslot : dependency.shape.slot? index = some slot) :
    env.read run meaning name index = (compute run meaning name dependency slot env).map
      fun outcome => (outcome.1.bind (dependency.shape.part index), outcome.2) := by
  have hwhole : ∀ outcome : Option (Except Error Value × Environment π),
      outcome = outcome.map fun outcome => (outcome.1.bind .ok, outcome.2) := by
    rintro (_ | ⟨_ | _, _⟩) <;> rfl
  rw [read, Table.contains, h, Option.isSome_some, if_pos rfl, evaluate, h]
  dsimp only
  cases hshape : dependency.shape with
  | scalar =>
      simp only [hshape, Shape.slot?, Option.some.injEq] at hslot
      subst hslot
      cases index with
      | none => exact hwhole _
      | some position => rfl
  | itemwise =>
      cases index with
      | none => simp [hshape, Shape.slot?] at hslot
      | some position =>
          simp only [hshape, Shape.slot?, Option.some.injEq] at hslot
          subst hslot
          exact hwhole _

/-- A read ends in the stored value, in an error for the lack of an index, or in a part of what
computing a slot gives. -/
theorem read_eq_some {env after : Environment π} {name : QualifiedName} {index : Option Int64}
    {result : Except Error Value}
    (h : env.read run meaning name index = some (result, after)) :
    (env.dependencies.get? name = none ∧ result = env.readStored name index ∧ after = env) ∨
    ∃ dependency, env.dependencies.get? name = some dependency ∧
      ((dependency.shape.slot? index = none ∧ result = .error (.indexRequired name) ∧
        after = env) ∨
      ∃ slot whole, dependency.shape.slot? index = some slot ∧
        compute run meaning name dependency slot env = some (whole, after) ∧
        result = whole.bind (dependency.shape.part index)) := by
  cases hname : env.dependencies.get? name with
  | none =>
      rw [read_of_unregistered hname] at h
      cases h
      exact Or.inl ⟨rfl, rfl, rfl⟩
  | some dependency =>
      refine Or.inr ⟨dependency, rfl, ?_⟩
      cases hslot : dependency.shape.slot? index with
      | none =>
          rw [read_of_unindexed hname hslot] at h
          cases h
          exact Or.inl ⟨rfl, rfl, rfl⟩
      | some slot =>
          rw [read_of_slot? hname hslot, Option.map_eq_some_iff] at h
          obtain ⟨⟨whole, middle⟩, hcompute, hresult⟩ := h
          cases hresult
          exact Or.inr ⟨slot, whole, rfl, hcompute, rfl⟩

/-- Computing a slot ends in its value, in a cycle, or in what its procedure gives. -/
theorem compute_eq_some {env after : Environment π} {name : QualifiedName}
    {dependency : Dependency π} {slot : Option Int64} {result : Except Error Value}
    (h : compute run meaning name dependency slot env = some (result, after)) :
    (∃ value, dependency.status slot = .valid value ∧ result = .ok value ∧ after = env) ∨
    (dependency.status slot = .evaluating ∧
      result = .error (.circularDependency name (env.chain name slot)) ∧ after = env) ∨
    (dependency.status slot = .uninitialized ∧ ∃ middle,
      run (meaning dependency.procedure slot) (env.start name dependency slot) =
        some (result, middle) ∧
      after = middle.finish name dependency.serial dependency.epoch slot result) := by
  unfold compute at h
  split at h
  · next value hstatus =>
      cases h
      exact Or.inl ⟨value, hstatus, rfl, rfl⟩
  · next hstatus =>
      cases h
      exact Or.inr (Or.inl ⟨hstatus, rfl, rfl⟩)
  · next hstatus =>
      split at h
      · cases h
      · next hrun =>
          cases h
          exact Or.inr (Or.inr ⟨hstatus, _, hrun, rfl⟩)

theorem compute_of_uninitialized {env middle : Environment π} {name : QualifiedName}
    {dependency : Dependency π} {slot : Option Int64}
    {result : Except Error Value} (h : dependency.status slot = .uninitialized)
    (hrun : run (meaning dependency.procedure slot) (env.start name dependency slot) =
      some (result, middle)) :
    compute run meaning name dependency slot env =
      some (result, middle.finish name dependency.serial dependency.epoch slot result) := by
  rw [compute, h]
  dsimp only
  rw [hrun]

end Environment
end Memograph
