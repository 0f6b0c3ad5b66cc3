import Memograph.Session
import Memograph.Proofs.Cascade

/-! What a registration changes. The new reader joins the index behind the names that it reads,
the other readers keep their places, and a name that was taken has its readers invalidated. A name
that is registered for the first time does not: a value that was computed from its stored value
then outlives it. -/

open Relation

namespace Memograph.Environment

/-! ### The index of readers -/

section Readers

variable (readers : Table QualifiedName (List QualifiedName)) (reader : QualifiedName)

/-- A reader goes behind those of each name that it reads and where it is not listed yet. -/
theorem getD_addReads (reads : List QualifiedName) (name : QualifiedName) :
    ((addReads readers reader reads).get? name).getD [] =
      if name ∈ reads ∧ reader ∉ (readers.get? name).getD [] then
        (readers.get? name).getD [] ++ [reader]
      else (readers.get? name).getD [] := by
  unfold addReads
  induction reads generalizing readers with
  | nil => simp
  | cons read reads ih =>
      rw [List.foldl_cons, ih, Table.alter, Table.get?_insert]
      by_cases hname : name = read
      · subst hname
        by_cases hmem : reader ∈ (readers.get? name).getD [] <;> simp [hmem]
      · simp only [hname, if_false, List.mem_cons, false_or]

/-- A reader goes from among those of each name that it reads. -/
theorem getD_dropReads (reads : List QualifiedName) (name : QualifiedName) :
    ((dropReads readers reader reads).get? name).getD [] =
      if name ∈ reads then ((readers.get? name).getD []).filter (· ≠ reader)
      else (readers.get? name).getD [] := by
  unfold dropReads
  induction reads generalizing readers with
  | nil => simp
  | cons read reads ih =>
      rw [List.foldl_cons, ih]
      cases hread : readers.get? read with
      | none =>
          by_cases hname : name = read
          · subst hname
            simp [hread]
          · simp [hname]
      | some names =>
          dsimp only
          rw [Table.get?_insert]
          by_cases hname : name = read
          · subst hname
            simp [hread, List.filter_filter]
          · simp only [hname, if_false, List.mem_cons, false_or]

theorem mem_addReads_iff (reads : List QualifiedName) (name other : QualifiedName) :
    other ∈ ((addReads readers reader reads).get? name).getD [] ↔
      other ∈ (readers.get? name).getD [] ∨ other = reader ∧ name ∈ reads := by
  rw [getD_addReads]
  split
  · next hadded => simp [hadded.1]
  · next hkept =>
      refine (or_iff_left_of_imp ?_).symm
      rintro ⟨rfl, hread⟩
      by_contra hmem
      exact hkept ⟨hread, hmem⟩

theorem mem_dropReads_iff (reads : List QualifiedName) (name other : QualifiedName) :
    other ∈ ((dropReads readers reader reads).get? name).getD [] ↔
      other ∈ (readers.get? name).getD [] ∧ ¬(other = reader ∧ name ∈ reads) := by
  rw [getD_dropReads]
  by_cases hread : name ∈ reads <;> simp [hread]

end Readers

/-! ### A registration -/

variable {π : Type}

/-- A dependency under a new name. -/
def enroll (env : Environment π) (name : QualifiedName) (registration : Registration π) :
    Environment π :=
  { env with
    dependencies :=
      env.dependencies.insert name (Dependency.ofRegistration env.registrations registration)
    readers := addReads env.readers name registration.reads
    registrations := env.registrations + 1 }

/-- A dependency in the place of an old one, before those that read it are invalidated. -/
def supersede (env : Environment π) (name : QualifiedName) (old : Dependency π)
    (registration : Registration π) : Environment π :=
  { env with
    dependencies :=
      env.dependencies.insert name (Dependency.ofRegistration env.registrations registration)
    superseded := if old.inFlight then env.superseded ++ [old] else env.superseded
    readers := addReads (dropReads env.readers name old.reads) name registration.reads
    registrations := env.registrations + 1 }

theorem register_of_unregistered (env : Environment π) {name : QualifiedName}
    (h : env.dependencies.get? name = none) (registration : Registration π) :
    env.register name registration = (.ok (), env.enroll name registration) := by
  rw [register, h]
  rfl

/-- A registration is refused and changes nothing, is the first one of its name, or takes the
place of another. -/
theorem register_cases (env : Environment π) (name : QualifiedName)
    (registration : Registration π) :
    (env.dependencies.get? name = none ∧
      env.register name registration = (.ok (), env.enroll name registration)) ∨
    (∃ old, env.dependencies.get? name = some old ∧ env.config.redefinition = .reject ∧
      env.register name registration = (.error (.redefinitionConflict name), env)) ∨
    (∃ old, env.dependencies.get? name = some old ∧ env.config.redefinition = .replace ∧
      env.register name registration =
        (.ok (), ((env.supersede name old registration).notify name).2)) := by
  unfold register
  cases hname : env.dependencies.get? name with
  | none => exact Or.inl ⟨rfl, rfl⟩
  | some old =>
      cases hconfig : env.config.redefinition with
      | reject => exact Or.inr (Or.inl ⟨old, rfl, rfl, rfl⟩)
      | replace => exact Or.inr (Or.inr ⟨old, rfl, rfl, rfl⟩)

theorem mem_readersOf_enroll_iff (env : Environment π) (name : QualifiedName)
    (registration : Registration π) (read reader : QualifiedName) :
    reader ∈ (env.enroll name registration).readersOf read ↔
      reader ∈ env.readersOf read ∨ reader = name ∧ read ∈ registration.reads :=
  mem_addReads_iff env.readers name registration.reads read reader

theorem mem_readersOf_supersede_iff (env : Environment π) (name : QualifiedName)
    (old : Dependency π) (registration : Registration π) (read reader : QualifiedName) :
    reader ∈ (env.supersede name old registration).readersOf read ↔
      (reader ∈ env.readersOf read ∧ ¬(reader = name ∧ read ∈ old.reads)) ∨
        reader = name ∧ read ∈ registration.reads := by
  rw [readersOf, supersede, mem_addReads_iff, mem_dropReads_iff]
  rfl

/-- Whether an environment has a new dependency under a name, with what it reads, and is the same
otherwise. -/
structure Installs (env after : Environment π) (name : QualifiedName)
    (registration : Registration π) : Prop where
  get? : ∀ key, after.dependencies.get? key =
    if key = name then some (Dependency.ofRegistration env.registrations registration)
    else env.dependencies.get? key
  readers : ∀ read reader, reader ≠ name →
    (reader ∈ after.readersOf read ↔ reader ∈ env.readersOf read)
  stored : after.stored = env.stored
  stack : after.stack = env.stack

theorem installs_enroll (env : Environment π) (name : QualifiedName)
    (registration : Registration π) :
    env.Installs (env.enroll name registration) name registration where
  get? := fun _ => Table.get?_insert _ _ _ _
  readers := fun read reader h => by
    rw [mem_readersOf_enroll_iff]
    simp [h]
  stored := rfl
  stack := rfl

theorem installs_supersede (env : Environment π) (name : QualifiedName) (old : Dependency π)
    (registration : Registration π) :
    env.Installs (env.supersede name old registration) name registration where
  get? := fun _ => Table.get?_insert _ _ _ _
  readers := fun read reader h => by
    rw [mem_readersOf_supersede_iff]
    simp [h]
  stored := rfl
  stack := rfl

/-- What a name reaches does not depend on what leads to the name. -/
theorem reaches_self_iff {env after : Environment π} {name : QualifiedName}
    (h : ∀ read reader, reader ≠ name →
      (reader ∈ after.readersOf read ↔ reader ∈ env.readersOf read)) (reader : QualifiedName) :
    after.Reaches name reader ↔ env.Reaches name reader := by
  constructor <;> intro hpath
  · induction hpath with
    | refl => exact .refl
    | @tail read reader _ hreader ih =>
        by_cases heq : reader = name
        · exact heq ▸ .refl
        · exact ih.tail ((h read reader heq).mp hreader)
  · induction hpath with
    | refl => exact .refl
    | @tail read reader _ hreader ih =>
        by_cases heq : reader = name
        · exact heq ▸ .refl
        · exact ih.tail ((h read reader heq).mpr hreader)

/-- What does not lie behind a name is reached as before the name was installed. -/
theorem Installs.reaches_of_apart {env after : Environment π} {name : QualifiedName}
    {registration : Registration π} (h : env.Installs after name registration)
    {source reader : QualifiedName} (hapart : ¬after.Reaches name reader)
    (hpath : after.Reaches source reader) : env.Reaches source reader := by
  induction hpath using ReflTransGen.head_induction_on with
  | refl => exact .refl
  | @head read middle hedge hrest ih =>
      have hne : middle ≠ name := by
        rintro rfl
        exact hapart hrest
      exact ih.head ((h.readers read middle hne).mp hedge)

theorem reaches_enroll_iff (env : Environment π) (name : QualifiedName)
    (registration : Registration π) (reader : QualifiedName) :
    (env.enroll name registration).Reaches name reader ↔ env.Reaches name reader :=
  reaches_self_iff (installs_enroll env name registration).readers reader

end Memograph.Environment

namespace Memograph

variable {π : Type}

theorem Status.value?_eq_some {status : Status} {value : Value} (h : status.value? = some value) :
    status = .valid value := by
  cases status with
  | valid other => exact congrArg Status.valid (Option.some.inj h)
  | _ => cases h

/-- Whether some slot of a dependency has a value. -/
def Dependency.HasValue (dependency : Dependency π) : Prop :=
  ∃ index value, dependency.status index = .valid value

theorem Dependency.not_hasValue_ofRegistration (serial : Nat) (registration : Registration π) :
    ¬(Dependency.ofRegistration serial registration).HasValue := by
  rintro ⟨index, value, h⟩
  cases h

theorem Dependency.status_invalidate (dependency : Dependency π) (index : Option Int64) :
    dependency.invalidate.status index =
      match dependency.status index with
      | .evaluating => .evaluating
      | _ => .uninitialized := by
  have hmatch : ∀ slot : Slot, (match slot.status with
      | .evaluating => Status.evaluating
      | _ => .uninitialized) = if slot.isRunning then .evaluating else .uninitialized := by
    intro slot
    rcases slot with ⟨_ | _ | _, _ | _⟩ <;> rfl
  rw [status, status, slotAt, slotAt, hmatch, invalidate]
  cases dependency.shape with
  | scalar =>
      dsimp only
      rw [Table.get?_mapValues]
      cases dependency.slots.get? index with
      | none => rfl
      | some slot => exact slot.status_clear
  | itemwise =>
      dsimp only
      rw [Table.get?_filterValues]
      cases dependency.slots.get? index with
      | none => rfl
      | some slot =>
          by_cases hrunning : slot.isRunning = true
          · simp [Option.filter, hrunning, slot.status_eq_evaluating_iff]
          · simp [Option.filter, hrunning, Slot.fresh, Slot.status]

theorem Dependency.not_hasValue_invalidate (dependency : Dependency π) :
    ¬dependency.invalidate.HasValue := by
  rintro ⟨index, value, h⟩
  rw [status_invalidate] at h
  split at h <;> cases h

namespace Environment

theorem not_hasValue_notify (env : Environment π) {name reader : QualifiedName}
    {dependency : Dependency π} (hreaches : env.Reaches name reader)
    (hreader : (env.notify name).2.dependencies.get? reader = some dependency) :
    ¬dependency.HasValue := by
  rw [notify_get?_of_reaches env hreaches] at hreader
  obtain ⟨before, -, rfl⟩ := Option.map_eq_some_iff.mp hreader
  exact before.not_hasValue_invalidate

/-- After a registration nothing that the name reaches has a value, exactly if the name was taken
before or nothing that it reaches had a value. -/
theorem register_clears_readers_iff (env : Environment π) (name : QualifiedName)
    (registration : Registration π) (h : (env.register name registration).1 = .ok ()) :
    (∀ reader dependency, (env.register name registration).2.Reaches name reader →
      (env.register name registration).2.dependencies.get? reader = some dependency →
        ¬dependency.HasValue) ↔
      env.dependencies.contains name = true ∨ ∀ reader dependency, env.Reaches name reader →
        env.dependencies.get? reader = some dependency → ¬dependency.HasValue := by
  rcases register_cases env name registration with
    ⟨hname, hregister⟩ | ⟨old, hname, -, hregister⟩ | ⟨old, hname, -, hregister⟩
  · have hcontains : ¬env.dependencies.contains name = true := by simp [Table.contains, hname]
    have hget : ∀ reader, reader ≠ name →
        (env.enroll name registration).dependencies.get? reader = env.dependencies.get? reader := by
      intro reader hne
      rw [(installs_enroll env name registration).get?, if_neg hne]
    rw [hregister, or_iff_right hcontains]
    constructor
    · intro hclear reader dependency hreaches hreader
      have hne : reader ≠ name := by
        rintro rfl
        rw [hname] at hreader
        cases hreader
      refine hclear reader dependency ((reaches_enroll_iff _ _ _ _).mpr hreaches) ?_
      rw [hget reader hne, hreader]
    · intro hclear reader dependency hreaches hreader
      by_cases hne : reader = name
      · subst hne
        simp only [enroll, Table.get?_insert, if_true, Option.some.injEq] at hreader
        exact hreader ▸ Dependency.not_hasValue_ofRegistration _ _
      · rw [hget reader hne] at hreader
        exact hclear reader dependency ((reaches_enroll_iff _ _ _ _).mp hreaches) hreader
  · rw [hregister] at h
    cases h
  · have hcontains : env.dependencies.contains name = true := by simp [Table.contains, hname]
    rw [hregister, iff_true_right (Or.inl hcontains)]
    intro reader dependency hreaches hreader
    refine not_hasValue_notify _ ?_ hreader
    rwa [reaches_of_readers_eq (by rw [notify_snd])] at hreaches

/-- A variable is defined over a stored one and read. -/
def overStored : Session where
  config := .standard
  context := .root
  steps :=
    [.assign (.written "y") (.int 1), .define (.ofBody "x" none (.name "y") "") none,
      .read (.written "x") none]

/-- Defining the stored variable then leaves the value that was computed from it. -/
theorem register_clears_readers_iff_overStored :
    ∃ reports env, overStored.run = some (reports, env) ∧
      ∀ registration, (env.register ⟨.root, "y"⟩ registration).1 = .ok () ∧
        ¬∀ reader dependency,
          (env.register ⟨.root, "y"⟩ registration).2.Reaches ⟨.root, "y"⟩ reader →
          (env.register ⟨.root, "y"⟩ registration).2.dependencies.get? reader =
            some dependency → ¬dependency.HasValue := by
  have hcomputed : (overStored.run.map fun outcome =>
      (outcome.2.dependencies.contains ⟨.root, "y"⟩, outcome.2.readersOf ⟨.root, "y"⟩,
        (outcome.2.dependencies.get? ⟨.root, "x"⟩).bind fun dependency =>
          ((dependency.status none).value?).map fun _ => ())) =
      some (false, [⟨.root, "x"⟩], some ()) := by
    decide +kernel
  obtain ⟨⟨reports, env⟩, hrun, henv⟩ := Option.map_eq_some_iff.mp hcomputed
  obtain ⟨hfree, henv⟩ := Prod.mk.inj henv
  obtain ⟨hreaders, hvalue⟩ := Prod.mk.inj henv
  dsimp only at hfree hreaders hvalue
  obtain ⟨dependency, hname, hstatus⟩ := Option.bind_eq_some_iff.mp hvalue
  obtain ⟨value, hvalue, -⟩ := Option.map_eq_some_iff.mp hstatus
  refine ⟨reports, env, hrun, fun registration => ?_⟩
  have hnone : env.dependencies.get? ⟨.root, "y"⟩ = none := by
    simpa [Table.contains] using hfree
  have hok : (env.register ⟨.root, "y"⟩ registration).1 = .ok () := by
    simp only [register, hnone]
  refine ⟨hok, fun hclear => ?_⟩
  rw [register_clears_readers_iff env _ registration hok] at hclear
  rcases hclear with htaken | hclear
  · rw [hfree] at htaken
    cases htaken
  · refine hclear ⟨.root, "x"⟩ dependency (.single ?_) hname
      ⟨none, value, Status.value?_eq_some hvalue⟩
    rw [hreaders]
    exact List.mem_singleton_self _

end Environment
end Memograph
