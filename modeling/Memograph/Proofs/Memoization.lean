import Memograph.Proofs.Layers
import Memograph.Proofs.Overtaking

/-! Memoization over whole sessions. A value stays in its slot until a cascade lists the name of
its dependency or the name is registered anew, whatever else happens in between, in this step or in
a later one. Until then each read of the slot has the value and leaves everything as it is. So
between two such events the slot is given a value at most once, and is not recomputed after that. -/

namespace Memograph

variable {π : Type}

/-! ### What unsettles a value -/

/-- The names that the cascade of a request lists, if it has one. -/
def Request.listed (env : Environment π) : Request π → List QualifiedName
  | .assign name value => (env.assign name value).1
  | .notify name => (env.notify name).1
  | .register name registration =>
    match env.dependencies.get? name, env.config.redefinition with
    | some old, .replace => ((env.supersede name old registration).notify name).1
    | _, _ => []
  | _ => []

/-- What happens in a session: a step begins, or something happens in a step. -/
inductive Moment (π : Type) where
  | turn
  | happens (event : Event π)

namespace Moment

/-- The environment after a moment. -/
def apply (env : Environment π) : Moment π → Environment π
  | .turn => env.cleared
  | .happens event => event.apply env

/-- Whether a moment has a cascade that lists a name, or registers the name anew. -/
def unsettles (name : QualifiedName) (env : Environment π) : Moment π → Bool
  | .happens (.asked request) =>
    decide (name ∈ request.listed env ∨ request.installs? env = some name)
  | _ => false

/-- Whether a moment is the start of a recompute of a slot. -/
def begins (name : QualifiedName) (slot : Option Int64) : Moment π → Bool
  | .happens (.began launch) => launch.name == name && launch.slot == slot
  | _ => false

/-- Whether a moment is the end of a recompute that gives a value to a slot of the dependency which
has a name. -/
def caches (name : QualifiedName) (slot : Option Int64) (env : Environment π) : Moment π → Bool
  | .happens (.ended launch result) =>
    launch.name == name && launch.slot == slot &&
      (env.dependencies.get? name).any (fun dependency =>
        dependency.serial == launch.dependency.serial) &&
      ((launch.finish env result).statusOf name slot).value?.isSome
  | _ => false

end Moment

namespace Environment

/-- The environment after some moments. -/
def through (env : Environment π) (moments : List (Moment π)) : Environment π :=
  moments.foldl Moment.apply env

/-- Whether no cascade lists a name in some moments, and the name is not registered anew. -/
def spares (name : QualifiedName) : Environment π → List (Moment π) → Bool
  | _, [] => true
  | env, moment :: moments => !moment.unsettles name env && spares name (moment.apply env) moments

/-- How many recomputes of a slot end with a value that it keeps. -/
def cachings (name : QualifiedName) (slot : Option Int64) : Environment π → List (Moment π) → Nat
  | _, [] => 0
  | env, moment :: moments =>
    (moment.caches name slot env).toNat + cachings name slot (moment.apply env) moments

theorem through_append (env : Environment π) (before moments : List (Moment π)) :
    env.through (before ++ moments) = (env.through before).through moments :=
  List.foldl_append

theorem through_happens (env : Environment π) (events : List (Event π)) :
    env.through (events.map .happens) = env.after events :=
  List.foldl_map

variable {env after : Environment π}

theorem listed_eq (env : Environment π) (request : Request π) :
    request.listed env =
      match request.cascade? env with
      | none => []
      | some source => ((request.prepare env).notify source).1 := by
  cases request with
  | register name registration =>
      dsimp only [Request.listed, Request.cascade?, Request.prepare]
      cases env.dependencies.get? name with
      | none => rfl
      | some old => cases env.config.redefinition <;> rfl
  | _ => rfl

/-- The list of a cascade has the names of all dependencies that it visits. -/
theorem Identified.mem_listed_of_visits (h : env.Identified) {request : Request π}
    {name : QualifiedName} {dependency : Dependency π}
    (hname : env.dependencies.get? name = some dependency)
    (hkept : request.installs? env ≠ some name)
    (hvisits : (Event.asked request).visits env dependency.serial = true) :
    name ∈ request.listed env := by
  rw [Event.visits, Option.any_eq_true] at hvisits
  obtain ⟨source, hcascade, hvisits⟩ := hvisits
  have hlater : (request.prepare env).dependencies.get? name = some dependency := by
    rw [get?_prepare_of_ne hkept, hname]
  rw [listed_eq, hcascade]
  refine (mem_notify_iff _ source name).mpr ⟨?_, ?_⟩
  · rw [Table.contains, hlater, Option.isSome_some]
  · exact ((h.prepare request).cascadesTo_iff_reaches hlater source).mp hvisits

/-! ### One event -/

theorem slotAt_of_status_eq_valid {dependency : Dependency π} {slot : Option Int64} {value : Value}
    (h : dependency.status slot = .valid value) :
    dependency.slotAt slot = ⟨.valid, some value⟩ := by
  rw [Dependency.status] at h
  rcases hslot : dependency.slotAt slot with ⟨_ | _ | _, _ | cached⟩ <;> rw [hslot] at h <;> cases h
  rfl

section Event

variable {event : Event π} {name : QualifiedName} {slot : Option Int64} {value : Value}

/-- A value stays through an event that does not unsettle it. -/
theorem Lifecycle.statusOf_apply_of_valid (h : env.Lifecycle) (henabled : event.Enabled env)
    (hspared : (Moment.happens event).unsettles name env = false)
    (hvalid : env.statusOf name slot = .valid value) :
    (event.apply env).statusOf name slot = .valid value := by
  obtain ⟨dependency, hname⟩ := get?_isSome_of_statusOf (by rw [hvalid]; exact nofun)
  rw [statusOf_of_get? hname] at hvalid
  have hspared' : event.installs? env ≠ some name ∧
      event.visits env dependency.serial = false := by
    cases event with
    | asked request =>
        have hneither := of_decide_eq_false hspared
        rw [not_or] at hneither
        refine ⟨hneither.2, Bool.eq_false_iff.mpr fun hvisits => hneither.1 ?_⟩
        exact h.mem_listed_of_visits hname hneither.2 hvisits
    | began launch => exact ⟨nofun, rfl⟩
    | ended launch result => exact ⟨nofun, rfl⟩
  have hlater : (event.apply env).dependencies.get? name = some (event.alter env dependency) := by
    rw [h.get?_apply henabled hspared'.1, hname, Option.map_some]
  rw [statusOf_of_get? hlater, Dependency.status,
    h.slotAt_alter_of_valid henabled (mem_held_of_get? hname) hspared'.2
      (slotAt_of_status_eq_valid hvalid)]
  rfl

/-- A slot with a value is not recomputed. -/
theorem begins_eq_false_of_valid (henabled : event.Enabled env)
    (hvalid : env.statusOf name slot = .valid value) :
    (Moment.happens event).begins name slot = false := by
  cases event with
  | asked request => rfl
  | ended launch result => rfl
  | began launch =>
      rw [Moment.begins, Bool.and_eq_false_iff, beq_eq_false_iff_ne, beq_eq_false_iff_ne]
      by_contra hboth
      rw [not_or, not_not, not_not] at hboth
      obtain ⟨rfl, rfl⟩ := hboth
      have hempty := henabled.empty
      rw [statusOf_of_get? henabled.registered, hempty] at hvalid
      cases hvalid

/-- No recompute ends that gives a value to a slot which has one. -/
theorem Lifecycle.caches_eq_false_of_valid (h : env.Lifecycle) (henabled : event.Enabled env)
    (hvalid : env.statusOf name slot = .valid value) :
    (Moment.happens event).caches name slot env = false := by
  cases event with
  | asked request => rfl
  | began launch => rfl
  | ended launch result =>
      rw [Bool.eq_false_iff]
      intro hcaches
      simp only [Moment.caches, Bool.and_eq_true, beq_iff_eq, Option.any_eq_true] at hcaches
      obtain ⟨⟨⟨rfl, rfl⟩, dependency, hname, hserial⟩, -⟩ := hcaches
      -- The recompute that ends has its frame on the stack, so its slot is marked as running.
      have hframe : launch.frame.key ∈ env.stack.map Frame.key :=
        List.mem_map_of_mem (List.mem_of_head? henabled)
      change (launch.dependency.serial, launch.slot) ∈ _ at hframe
      rw [← hserial, ← h.evaluating_iff hname] at hframe
      rw [statusOf_of_get? hname, hframe] at hvalid
      cases hvalid

end Event

/-- A slot with a value is read without a recompute, and nothing changes. -/
theorem evaluate_of_valid {name : QualifiedName} {slot index : Option Int64} {value : Value}
    {dependency : Dependency π} (hname : env.dependencies.get? name = some dependency)
    (hslot : dependency.shape.slot? index = some slot)
    (hvalid : env.statusOf name slot = .valid value) (run : Runner π (Except Error Value))
    (meaning : Meaning π) :
    env.evaluate run meaning name index = some (dependency.shape.part index value, env) := by
  rw [statusOf_of_get? hname] at hvalid
  rw [evaluate_eq_read hname, read_of_slot? hname hslot, compute, hvalid]
  rfl

/-! ### Sessions, moment by moment -/

/-- Moments that lead from one environment to another, each event where it can happen. -/
inductive Course : Environment π → List (Moment π) → Environment π → Prop where
  | nil (env : Environment π) : Course env [] env
  | turn {env after : Environment π} {moments : List (Moment π)} :
      Course env.cleared moments after → Course env (.turn :: moments) after
  | happens {env after : Environment π} {event : Event π} {moments : List (Moment π)} :
      event.Enabled env → Course (event.apply env) moments after →
        Course env (.happens event :: moments) after

/-- The moments of a session up to some one of them. Its steps and procedures are dialogues of any
kind, and its last step need not come to an end. -/
inductive Unfolds (meaning : Meaning π) : Environment π → List (Moment π) → Prop where
  | nil (env : Environment π) : Unfolds meaning env []
  | within {α : Type} {env : Environment π} {d : Dialogue π α} {depth : Nat}
      {events : List (Event π)} : events <+: history meaning depth d env.cleared →
        Unfolds meaning env (.turn :: events.map .happens)
  | step {α : Type} {env after : Environment π} {d : Dialogue π α} {result : α}
      {moments : List (Moment π)} : env.cleared.run meaning d = some (result, after) →
        Unfolds meaning after moments → Unfolds meaning env (.turn ::
          ((history meaning env.cleared.depthLimit d env.cleared).map .happens ++ moments))

variable {before moments : List (Moment π)}

namespace Course

theorem append {middle : Environment π} (h : Course env before middle)
    (h' : Course middle moments after) : Course env (before ++ moments) after := by
  induction h with
  | nil => exact h'
  | turn _ ih => exact .turn (ih h')
  | happens henabled _ ih => exact .happens henabled (ih h')

theorem eq_through (h : Course env moments after) : after = env.through moments := by
  induction h with
  | nil => rfl
  | turn _ ih => exact ih
  | happens _ _ ih => exact ih

theorem split (h : Course env (before ++ moments) after) :
    Course env before (env.through before) ∧ Course (env.through before) moments after := by
  induction before generalizing env with
  | nil => exact ⟨.nil env, h⟩
  | cons moment before ih =>
      cases h with
      | turn hrest =>
          obtain ⟨hbefore, hafter⟩ := ih hrest
          exact ⟨.turn hbefore, hafter⟩
      | happens henabled hrest =>
          obtain ⟨hbefore, hafter⟩ := ih hrest
          exact ⟨.happens henabled hbefore, hafter⟩

theorem lifecycle (h : Course env moments after) (henv : env.Lifecycle) : after.Lifecycle := by
  induction h with
  | nil => exact henv
  | turn _ ih => exact ih henv.cleared
  | happens henabled _ ih => exact ih (henv.apply henabled)

end Course

theorem Path.course {events : List (Event π)} (h : Path env events after) :
    Course env (events.map .happens) after := by
  induction h with
  | nil env => exact .nil env
  | cons henabled _ ih => exact .happens henabled ih

theorem Unfolds.exists_course {meaning : Meaning π} (h : env.Unfolds meaning moments) :
    ∃ last, Course env moments last := by
  induction h with
  | nil env => exact ⟨env, .nil env⟩
  | @within α env d depth events hprefix =>
      exact ⟨_, .turn (Path.course (path_of_history hprefix))⟩
  | @step α env after d result moments hrun _ ih =>
      obtain ⟨last, hlast⟩ := ih
      have htraces := traces_history meaning env.cleared.depthLimit d env.cleared
      exact ⟨last, .turn ((Path.course (htraces.path result after hrun)).append hlast)⟩

/-! ### Between two events that unsettle a value -/

section Between

variable {name : QualifiedName} {slot : Option Int64} {value : Value}

theorem spares_append : env.spares name (before ++ moments) =
    (env.spares name before && (env.through before).spares name moments) := by
  induction before generalizing env with
  | nil => rfl
  | cons moment before ih =>
      rw [List.cons_append, spares, spares, ih, Bool.and_assoc]
      rfl

/-- A value stays through moments that spare its name. -/
theorem Course.statusOf_of_valid (h : Course env moments after) (henv : env.Lifecycle)
    (hspares : env.spares name moments = true) (hvalid : env.statusOf name slot = .valid value) :
    after.statusOf name slot = .valid value := by
  induction h with
  | nil => exact hvalid
  | turn _ ih => exact ih henv.cleared hspares hvalid
  | happens henabled _ ih =>
      rw [spares, Bool.and_eq_true, Bool.not_eq_true'] at hspares
      exact ih (henv.apply henabled) hspares.2
        (henv.statusOf_apply_of_valid henabled hspares.1 hvalid)

/-- While a slot has a value and its name is spared, none of its recomputes begins, and none ends
that would give it another. -/
theorem Course.idle_of_valid (h : Course env moments after) (henv : env.Lifecycle)
    (hspares : env.spares name moments = true) (hvalid : env.statusOf name slot = .valid value) :
    (∀ moment ∈ moments, moment.begins name slot = false) ∧
      env.cachings name slot moments = 0 := by
  induction h with
  | nil => exact ⟨nofun, rfl⟩
  | turn _ ih =>
      obtain ⟨hbegins, hcachings⟩ := ih henv.cleared hspares hvalid
      refine ⟨?_, by rw [cachings, Moment.apply, hcachings]; rfl⟩
      exact List.forall_mem_cons.mpr ⟨rfl, hbegins⟩
  | happens henabled _ ih =>
      rw [spares, Bool.and_eq_true, Bool.not_eq_true'] at hspares
      obtain ⟨hbegins, hcachings⟩ := ih (henv.apply henabled) hspares.2
        (henv.statusOf_apply_of_valid henabled hspares.1 hvalid)
      refine ⟨?_, ?_⟩
      · exact List.forall_mem_cons.mpr ⟨begins_eq_false_of_valid henabled hvalid, hbegins⟩
      · rw [cachings, henv.caches_eq_false_of_valid henabled hvalid, Moment.apply, hcachings]
        rfl

theorem exists_valid_of_caches {moment : Moment π} (h : moment.caches name slot env = true) :
    ∃ value, (moment.apply env).statusOf name slot = .valid value := by
  unfold Moment.caches at h
  split at h
  · rw [Bool.and_eq_true] at h
    obtain ⟨value, hvalue⟩ := Option.isSome_iff_exists.mp h.2
    exact ⟨value, Status.value?_eq_some hvalue⟩
  · cases h

theorem Course.cachings_le_one (h : Course env moments after) (henv : env.Lifecycle)
    (hspares : env.spares name moments = true) : env.cachings name slot moments ≤ 1 := by
  induction h with
  | nil => exact Nat.zero_le 1
  | @turn env after moments _ ih =>
      have hcaches : Moment.turn.caches name slot env = false := rfl
      rw [cachings, hcaches, Bool.toNat_false, Nat.zero_add]
      exact ih henv.cleared hspares
  | @happens env after event moments henabled hrest ih =>
      rw [spares, Bool.and_eq_true] at hspares
      have hlater := henv.apply henabled
      rw [cachings]
      cases hcaches : (Moment.happens event).caches name slot env with
      | false =>
          rw [Bool.toNat_false, Nat.zero_add]
          exact ih hlater hspares.2
      | true =>
          obtain ⟨value, hvalid⟩ := exists_valid_of_caches hcaches
          have hnone := (hrest.idle_of_valid hlater hspares.2 hvalid).2
          rw [Moment.apply, hnone, Bool.toNat_true]

end Between

/-- What becomes of a slot in some moments: a value that it has stays and is what every read has, a
value is given to it once at most, and no recompute of it begins when it has one. -/
structure Memoizes (meaning : Meaning π) (name : QualifiedName) (slot : Option Int64)
    (env : Environment π) (during : List (Moment π)) : Prop where
  kept : ∀ value, env.statusOf name slot = .valid value → ∀ passed, passed <+: during →
    (env.through passed).statusOf name slot = .valid value
  /-- Reads of the slot, whoever would run a recompute, and wherever they are made. -/
  replied : ∀ value, env.statusOf name slot = .valid value → ∀ passed, passed <+: during →
    ∃ dependency, (env.through passed).dependencies.get? name = some dependency ∧
      ∀ index, dependency.shape.slot? index = some slot → ∀ run,
        (env.through passed).evaluate run meaning name index =
          some (dependency.shape.part index value, env.through passed) ∧
        (env.through passed).read run meaning name index =
          some (dependency.shape.part index value, env.through passed)
  unstarted : ∀ value, env.statusOf name slot = .valid value →
    ∀ moment ∈ during, moment.begins name slot = false
  once : env.cachings name slot during ≤ 1
  last : ∀ passed moment rest, during = passed ++ moment :: rest →
    moment.caches name slot (env.through passed) = true →
      ∀ later ∈ rest, later.begins name slot = false

/-- From any moment of a session to any later one, as long as no cascade lists the name of a
dependency and the name is not registered anew, the slots of the dependency are memoized. -/
theorem Unfolds.memoizes {meaning : Meaning π} {config : Config} {context : ContextPath}
    {before during : List (Moment π)} {name : QualifiedName}
    (h : (initial config context).Unfolds meaning (before ++ during))
    (hspares : ((initial config context).through before).spares name during = true)
    (slot : Option Int64) :
    ((initial config context).through before).Memoizes meaning name slot during := by
  obtain ⟨last, hcourse⟩ := h.exists_course
  obtain ⟨hbefore, hduring⟩ := hcourse.split
  have hlifecycle := hbefore.lifecycle (lifecycle_initial config context)
  generalize (initial config context).through before = env at hduring hlifecycle hspares ⊢
  have hkept : ∀ value, env.statusOf name slot = .valid value → ∀ passed, passed <+: during →
      (env.through passed).statusOf name slot = .valid value := by
    rintro value hvalid passed ⟨rest, rfl⟩
    rw [spares_append, Bool.and_eq_true] at hspares
    exact hduring.split.1.statusOf_of_valid hlifecycle hspares.1 hvalid
  constructor
  case kept => exact hkept
  case replied =>
    intro value hvalid passed hpassed
    have hthere := hkept value hvalid passed hpassed
    obtain ⟨dependency, hname⟩ := get?_isSome_of_statusOf (by rw [hthere]; exact nofun)
    refine ⟨dependency, hname, fun index hslot run => ?_⟩
    have hevaluate := evaluate_of_valid hname hslot hthere run meaning
    exact ⟨hevaluate, evaluate_eq_read hname run index ▸ hevaluate⟩
  case unstarted =>
    exact fun value hvalid => (hduring.idle_of_valid hlifecycle hspares hvalid).1
  case once => exact hduring.cachings_le_one hlifecycle hspares
  case last =>
    rintro passed moment rest rfl hcaches
    obtain ⟨value, hvalid⟩ := exists_valid_of_caches hcaches
    rw [← List.singleton_append, ← List.append_assoc] at hduring hspares
    rw [spares_append, Bool.and_eq_true] at hspares
    obtain ⟨hpassed, hrest⟩ := hduring.split
    have hthere : (env.through (passed ++ [moment])).statusOf name slot = .valid value := by
      rw [through_append]
      exact hvalid
    exact (hrest.idle_of_valid (hpassed.lifecycle hlifecycle) hspares.2 hthere).1

end Environment

namespace Session

open Environment

/-- The moments of steps that are taken one after the other. -/
def momentsOf : List Step → Environment Procedure → List (Moment Procedure)
  | [], _ => []
  | step :: steps, env =>
    .turn :: ((history Procedure.dialogue env.cleared.depthLimit (step.dialogue 0)
      env.cleared).map .happens ++
        ((env.cleared.run Procedure.dialogue (step.dialogue 0)).map Prod.snd).elim []
          (momentsOf steps))

theorem unfolds_momentsOf (steps : List Step) (env : Environment Procedure) :
    env.Unfolds Procedure.dialogue (momentsOf steps env) := by
  induction steps generalizing env with
  | nil => exact .nil env
  | cons step steps ih =>
      rw [momentsOf]
      cases hrun : env.cleared.run Procedure.dialogue (step.dialogue 0) with
      | none =>
          rw [Option.map_none, Option.elim_none, List.append_nil]
          exact .within (List.prefix_refl _)
      | some outcome => exact .step hrun (ih outcome.2)

/-- A variable is read, first by itself and then by a script that assigns to another variable,
goes on after a read that fails, and gives its own name to a new dependency. -/
def remembering : List Step :=
  [.assign (.written "y") (.int 2),
    .define (.ofBody "x" none (.binary .multiply (.name "y") (.constant (.int 3))) "") none,
    .read (.written "x") none,
    .register (.written "n") .scalar []
      [.assign (.written "z") (.int 1), .read (.written "w") none, .read (.written "x") none,
        .define (.ofBody "n" none (.name "x") "") none]
      ⟨none, none, some (.name "x")⟩,
    .read (.written "n") none, .read (.written "n") none]

end Session

/-- The variable keeps its value from its first read to the end. -/
theorem Environment.Unfolds.memoizes_remembering :
    ∃ (before during : List (Moment Procedure)) (value : Value),
      Session.momentsOf Session.remembering (.initial ⟨.replace⟩ .root) = before ++ during ∧
      during.length = 26 ∧
      ((initial ⟨.replace⟩ .root).through before).statusOf ⟨.root, "x"⟩ none = .valid value ∧
      ((initial ⟨.replace⟩ .root).through (before ++ during)).statusOf ⟨.root, "x"⟩ none =
        .valid value ∧
      ∀ moment ∈ during, moment.begins ⟨.root, "x"⟩ none = false := by
  have hunfolds := Session.unfolds_momentsOf Session.remembering (.initial ⟨.replace⟩ .root)
  obtain ⟨before, during, hsplit, hvalue, hspares, hlength⟩ :
      ∃ before during,
        Session.momentsOf Session.remembering (.initial ⟨.replace⟩ .root) = before ++ during ∧
        (((initial ⟨.replace⟩ .root).through before).statusOf ⟨.root, "x"⟩ none).value?.isSome =
          true ∧
        ((initial ⟨.replace⟩ .root).through before).spares ⟨.root, "x"⟩ during = true ∧
        during.length = 26 :=
    ⟨_, _, (List.take_append_drop 11 _).symm, by decide +kernel⟩
  obtain ⟨value, hvalue⟩ := Option.isSome_iff_exists.mp hvalue
  have hvalid := Status.value?_eq_some hvalue
  rw [hsplit] at hunfolds
  have hmemoizes := Unfolds.memoizes hunfolds hspares none
  refine ⟨before, during, value, hsplit, hlength, hvalid, ?_, hmemoizes.unstarted value hvalid⟩
  rw [through_append]
  exact hmemoizes.kept value hvalid during (List.prefix_refl during)

end Memograph
