import Memograph.Proofs.ReadSet
import Memograph.Proofs.Slots

/-! Runs, event by event. A request is replied to at once or starts a recompute, whose own events
come next and whose end comes behind them. So the events of a run lead from its first environment
to its last one, recomputes end in the reverse order of their start, and the stack is in the end
what it was. A run that nests too deep has events up to there. -/

namespace Memograph

variable {π α : Type}

/-- A recompute: a dependency as it is found under a name, and one of its slots. -/
structure Launch (π : Type) where
  name : QualifiedName
  dependency : Dependency π
  slot : Option Int64

namespace Launch

variable (launch : Launch π)

def frame : Frame := ⟨launch.dependency.serial, launch.name, launch.slot⟩

/-- The environment that the recompute begins in. -/
def start (env : Environment π) : Environment π :=
  env.start launch.name launch.dependency launch.slot

/-- The environment after the recompute. -/
def finish (env : Environment π) (result : Except Error Value) : Environment π :=
  env.finish launch.name launch.dependency.serial launch.dependency.epoch launch.slot result

def dialogue (meaning : Meaning π) : Dialogue π (Except Error Value) :=
  meaning launch.dependency.procedure launch.slot

/-- Whether an environment has the dependency of a recompute, and its slot has to be computed. -/
structure Enabled (env : Environment π) : Prop where
  registered : env.dependencies.get? launch.name = some launch.dependency
  index : ∃ index, launch.dependency.shape.slot? index = some launch.slot
  empty : launch.dependency.status launch.slot = .uninitialized

end Launch

namespace Request

/-- The recompute that a request starts, if it asks for a slot that has to be computed. -/
def launch? (env : Environment π) : Request π → Option (Launch π)
  | .read name index | .evaluate name index => do
    let dependency ← env.dependencies.get? name
    let slot ← dependency.shape.slot? index
    match dependency.status slot with
    | .uninitialized => some ⟨name, dependency, slot⟩
    | _ => none
  | _ => none

/-- What a request makes of an environment if it starts no recompute. -/
def effect (env : Environment π) : Request π → Environment π
  | .assign name value => (env.assign name value).2
  | .store name value => env.store name value
  | .notify name => (env.notify name).2
  | .register name registration => (env.register name registration).2
  | .enter context => { env with context }
  | .note answer => { env with journal := env.journal ++ [answer] }
  | _ => env

end Request

namespace Environment

variable {env : Environment π} {meaning : Meaning π}

/-! ### Requests -/

/-- A read starts a recompute of a slot that has to be computed. -/
theorem of_launch?_read {name : QualifiedName} {index : Option Int64} {launch : Launch π}
    (h : (Request.read name index).launch? env = some launch) :
    ∃ dependency slot, env.dependencies.get? name = some dependency ∧
      dependency.shape.slot? index = some slot ∧ dependency.status slot = .uninitialized ∧
      launch = ⟨name, dependency, slot⟩ := by
  obtain ⟨dependency, hname, h⟩ := Option.bind_eq_some_iff.mp h
  obtain ⟨slot, hslot, h⟩ := Option.bind_eq_some_iff.mp h
  split at h
  · next hstatus => exact ⟨dependency, slot, hname, hslot, hstatus, (Option.some.inj h).symm⟩
  · cases h

theorem enabled_of_launch? {request : Request π} {launch : Launch π}
    (h : request.launch? env = some launch) : launch.Enabled env := by
  have hread : ∀ name index, (Request.read name index).launch? env = some launch →
      launch.Enabled env := by
    intro name index hlaunch
    obtain ⟨dependency, slot, hname, hslot, hstatus, rfl⟩ := of_launch?_read hlaunch
    exact ⟨hname, ⟨index, hslot⟩, hstatus⟩
  cases request with
  | read name index => exact hread name index h
  | evaluate name index => exact hread name index h
  | _ => cases h

/-- A read that needs no recompute leaves the environment as it is, whoever would run one. -/
theorem exists_read_of_computed (meaning : Meaning π) {name : QualifiedName} {index : Option Int64}
    (h : ∀ dependency slot, env.dependencies.get? name = some dependency →
      dependency.shape.slot? index = some slot → dependency.status slot ≠ .uninitialized) :
    ∃ result, ∀ run : Runner π (Except Error Value),
      env.read run meaning name index = some (result, env) := by
  cases hname : env.dependencies.get? name with
  | none => exact ⟨_, fun run => read_of_unregistered hname index⟩
  | some dependency =>
      cases hslot : dependency.shape.slot? index with
      | none => exact ⟨_, fun run => read_of_unindexed hname hslot⟩
      | some slot =>
          have hcompute : ∃ whole, ∀ run : Runner π (Except Error Value),
              compute run meaning name dependency slot env = some (whole, env) := by
            cases hstatus : dependency.status slot with
            | uninitialized => exact absurd hstatus (h dependency slot hname hslot)
            | evaluating =>
                exact ⟨.error (.circularDependency name (env.chain name slot)), fun run => by
                  rw [compute, hstatus]⟩
            | valid value => exact ⟨.ok value, fun run => by rw [compute, hstatus]⟩
          obtain ⟨whole, hwhole⟩ := hcompute
          refine ⟨whole.bind (dependency.shape.part index), fun run => ?_⟩
          rw [read_of_slot? hname hslot, hwhole, Option.map_some]

theorem launch?_read_eq_none_iff {name : QualifiedName} {index : Option Int64} :
    (Request.read name index).launch? env = none ↔
      ∀ dependency slot, env.dependencies.get? name = some dependency →
        dependency.shape.slot? index = some slot → dependency.status slot ≠ .uninitialized := by
  constructor
  · intro h dependency slot hname hslot hstatus
    simp [Request.launch?, hname, hslot, hstatus] at h
  · intro h
    refine Option.bind_eq_none_iff.mpr fun dependency hname => ?_
    refine Option.bind_eq_none_iff.mpr fun slot hslot => ?_
    have hstatus := h dependency slot hname hslot
    split
    · next hempty => exact absurd hempty hstatus
    · rfl

theorem launch?_read_of_status {name : QualifiedName} {dependency : Dependency π}
    {index slot : Option Int64} (hname : env.dependencies.get? name = some dependency)
    (hslot : dependency.shape.slot? index = some slot)
    (hstatus : dependency.status slot ≠ .uninitialized) :
    (Request.read name index).launch? env = none := by
  refine launch?_read_eq_none_iff.mpr fun other place hother hplace => ?_
  obtain rfl : dependency = other := Option.some.inj (hname.symm.trans hother)
  obtain rfl : slot = place := Option.some.inj (hslot.symm.trans hplace)
  exact hstatus

theorem launch?_read_of_uninitialized {name : QualifiedName} {dependency : Dependency π}
    {index slot : Option Int64} (hname : env.dependencies.get? name = some dependency)
    (hslot : dependency.shape.slot? index = some slot)
    (hstatus : dependency.status slot = .uninitialized) :
    (Request.read name index).launch? env = some ⟨name, dependency, slot⟩ := by
  simp [Request.launch?, hname, hslot, hstatus]

/-- A request that starts no recompute is replied to at once. -/
theorem exists_respond_of_launch?_eq_none (meaning : Meaning π) {request : Request π}
    (h : request.launch? env = none) :
    ∃ reply, ∀ run : Runner π (Except Error Value),
      respond run meaning request env = some (reply, request.effect env) := by
  cases request with
  | read name index => exact exists_read_of_computed meaning (launch?_read_eq_none_iff.mp h)
  | evaluate name index =>
      cases hname : env.dependencies.get? name with
      | none =>
          refine ⟨.error (.unknownDependency name), fun run => ?_⟩
          rw [respond, evaluate, hname]
          rfl
      | some dependency =>
          obtain ⟨result, hresult⟩ :=
            exists_read_of_computed meaning (launch?_read_eq_none_iff.mp h)
          exact ⟨result, fun run => (evaluate_eq_read hname run index).trans (hresult run)⟩
  | _ => exact ⟨_, fun run => rfl⟩

/-- A request that starts a recompute has its reply from it. -/
theorem exists_respond_of_launch? (meaning : Meaning π) {request : Request π} {launch : Launch π}
    (h : request.launch? env = some launch) :
    ∃ reply : Except Error Value → request.Reply, ∀ run : Runner π (Except Error Value),
      respond run meaning request env = (run (launch.dialogue meaning) (launch.start env)).map
        fun outcome => (reply outcome.1, launch.finish outcome.2 outcome.1) := by
  have hread : ∀ name index, (Request.read name index).launch? env = some launch →
      env.dependencies.get? name = some launch.dependency ∧
      ∃ reply : Except Error Value → Except Error Value, ∀ run : Runner π (Except Error Value),
        env.read run meaning name index = (run (launch.dialogue meaning) (launch.start env)).map
          fun outcome => (reply outcome.1, launch.finish outcome.2 outcome.1) := by
    intro name index hlaunch
    obtain ⟨dependency, slot, hname, hslot, hstatus, rfl⟩ := of_launch?_read hlaunch
    refine ⟨hname, fun whole => whole.bind (dependency.shape.part index), fun run => ?_⟩
    rw [read_of_slot? hname hslot, compute, hstatus]
    dsimp only [Launch.dialogue, Launch.start]
    cases run (meaning dependency.procedure slot) (env.start name dependency slot) <;> rfl
  cases request with
  | read name index => exact (hread name index h).2
  | evaluate name index =>
      obtain ⟨hname, reply, hreply⟩ := hread name index h
      exact ⟨reply, fun run => (evaluate_eq_read hname run index).trans (hreply run)⟩
  | _ => cases h

end Environment

/-! ### Events -/

/-- What happens in a run. -/
inductive Event (π : Type) where
  /-- A request is replied to at once. -/
  | asked (request : Request π)
  | began (launch : Launch π)
  | ended (launch : Launch π) (result : Except Error Value)

namespace Event

/-- The environment after an event. -/
def apply (env : Environment π) : Event π → Environment π
  | .asked request => request.effect env
  | .began launch => launch.start env
  | .ended launch result => launch.finish env result

/-- Whether an event can happen in an environment. -/
def Enabled (env : Environment π) : Event π → Prop
  | .asked request => request.launch? env = none
  | .began launch => launch.Enabled env
  | .ended launch _ => env.stack.head? = some launch.frame

end Event

/-- The environment after some events. -/
def Environment.after (env : Environment π) (events : List (Event π)) : Environment π :=
  events.foldl Event.apply env

theorem Environment.after_append (env : Environment π) (first rest : List (Event π)) :
    env.after (first ++ rest) = (env.after first).after rest :=
  List.foldl_append

/-- Events that lead from one environment to another, each where it can happen. -/
inductive Path : Environment π → List (Event π) → Environment π → Prop where
  | nil (env : Environment π) : Path env [] env
  | cons {env after : Environment π} {event : Event π} {events : List (Event π)} :
      event.Enabled env → Path (event.apply env) events after → Path env (event :: events) after

namespace Path

variable {env middle after : Environment π} {before events : List (Event π)}

theorem append (h : Path env before middle) (h' : Path middle events after) :
    Path env (before ++ events) after := by
  induction h with
  | nil => exact h'
  | cons henabled _ ih => exact .cons henabled (ih h')

theorem split (h : Path env (before ++ events) after) :
    ∃ middle, Path env before middle ∧ Path middle events after := by
  induction before generalizing env with
  | nil => exact ⟨env, .nil env, h⟩
  | cons event before ih =>
      cases h with
      | cons henabled hrest =>
          obtain ⟨middle, hbefore, hafter⟩ := ih hrest
          exact ⟨middle, .cons henabled hbefore, hafter⟩

theorem concat {event : Event π} (h : Path env events middle) (henabled : event.Enabled middle) :
    Path env (events ++ [event]) (event.apply middle) :=
  h.append (.cons henabled (.nil _))

/-- The last environment of a path is what its events make of the first one. -/
theorem eq_after (h : Path env events after) : after = env.after events := by
  induction h with
  | nil => rfl
  | cons _ _ ih => exact ih

/-- What every event keeps holds in all environments that events lead to. -/
theorem invariant {I : Environment π → Prop}
    (hstep : ∀ {env : Environment π} {event : Event π}, event.Enabled env → I env →
      I (event.apply env))
    (h : Path env events after) (henv : I env) : I after := by
  induction h with
  | nil => exact henv
  | cons henabled _ ih => exact ih (hstep henabled henv)

end Path

/-! ### Histories -/

namespace Environment

/-- The events of a recompute: its start, those of its procedure and, if that comes to an end, its
end. -/
def recompute (inner : Dialogue π (Except Error Value) → Environment π → List (Event π))
    (run : Runner π (Except Error Value)) (meaning : Meaning π) (launch : Launch π)
    (env : Environment π) : List (Event π) :=
  .began launch :: (inner (launch.dialogue meaning) (launch.start env) ++
    match run (launch.dialogue meaning) (launch.start env) with
    | none => []
    | some (result, _) => [.ended launch result])

/-- The events of a dialogue, where `run` runs the recomputes that it starts and `inner` has their
events. -/
def events (inner : Dialogue π (Except Error Value) → Environment π → List (Event π))
    (run : Runner π (Except Error Value)) (meaning : Meaning π) :
    Dialogue π α → Environment π → List (Event π)
  | .done _, _ => []
  | .ask request next, env =>
    (match request.launch? env with
      | none => [.asked request]
      | some launch => recompute inner run meaning launch env) ++
    match respond run meaning request env with
    | none => []
    | some (reply, after) => events inner run meaning (next reply) after

/-- The events of the recomputes that a run with recomputes nested at most `depth` deep starts. -/
def innerHistory (meaning : Meaning π) :
    (depth : Nat) → Dialogue π (Except Error Value) → Environment π → List (Event π)
  | 0 => fun _ _ => []
  | depth + 1 => events (innerHistory meaning depth) (nested meaning depth) meaning

/-- The events of a run with recomputes nested at most `depth` deep. -/
def history (meaning : Meaning π) (depth : Nat) (d : Dialogue π α) (env : Environment π) :
    List (Event π) :=
  events (innerHistory meaning depth) (nested meaning depth) meaning d env

/-- The events of a request: that it is replied to, or those of the recompute that it starts. -/
def requestEvents (inner : Dialogue π (Except Error Value) → Environment π → List (Event π))
    (run : Runner π (Except Error Value)) (meaning : Meaning π) (request : Request π)
    (env : Environment π) : List (Event π) :=
  match request.launch? env with
  | none => [.asked request]
  | some launch => recompute inner run meaning launch env

variable {env : Environment π} {meaning : Meaning π}

section Asking

variable {inner : Dialogue π (Except Error Value) → Environment π → List (Event π)}
  {run : Runner π (Except Error Value)}

/-- A dialogue goes on behind the events of its first request. -/
theorem events_ask {request : Request π} {next : request.Reply → Dialogue π α}
    {reply : request.Reply} {after : Environment π}
    (h : respond run meaning request env = some (reply, after)) :
    events inner run meaning (.ask request next) env =
      requestEvents inner run meaning request env ++
        events inner run meaning (next reply) after := by
  rw [events, h]
  rfl

/-- What is made of the result of a dialogue happens without a further event. -/
theorem events_map {β : Type} (f : α → β) (d : Dialogue π α) (env : Environment π) :
    events inner run meaning (d.bind fun result => .done (f result)) env =
      events inner run meaning d env := by
  induction d generalizing env with
  | done result => rfl
  | ask request next ih =>
      rw [Dialogue.ask_bind, events, events]
      cases respond run meaning request env with
      | none => rfl
      | some reaction => exact congrArg _ (ih reaction.1 reaction.2)

end Asking

/-- Whether events are a path, and one to the outcome of a run if there is one. -/
structure Traces (env : Environment π) (events : List (Event π))
    (outcome : Option (α × Environment π)) : Prop where
  exists_path : ∃ last, Path env events last
  path : ∀ result after, outcome = some (result, after) → Path env events after
  stack : ∀ result after, outcome = some (result, after) → after.stack = env.stack

theorem Traces.append {β : Type} {events rest : List (Event π)} {result : α}
    {middle : Environment π} {outcome : Option (β × Environment π)}
    (h : env.Traces events (some (result, middle))) (hrest : middle.Traces rest outcome) :
    env.Traces (events ++ rest) outcome := by
  have hfirst := h.path result middle rfl
  constructor
  case exists_path =>
    obtain ⟨last, hlast⟩ := hrest.exists_path
    exact ⟨last, hfirst.append hlast⟩
  case path =>
    intro last after hafter
    exact hfirst.append (hrest.path last after hafter)
  case stack =>
    intro last after hafter
    exact (hrest.stack last after hafter).trans (h.stack result middle rfl)

theorem Traces.map {β : Type} {events : List (Event π)} {outcome : Option (α × Environment π)}
    (h : env.Traces events outcome) (f : α → β) :
    env.Traces events (outcome.map fun outcome => (f outcome.1, outcome.2)) := by
  refine ⟨h.exists_path, fun last after hafter => ?_, fun last after hafter => ?_⟩
  · obtain ⟨⟨result, middle⟩, houtcome, heq⟩ := Option.map_eq_some_iff.mp hafter
    cases heq
    exact h.path result middle houtcome
  · obtain ⟨⟨result, middle⟩, houtcome, heq⟩ := Option.map_eq_some_iff.mp hafter
    cases heq
    exact h.stack result middle houtcome

theorem stack_register (env : Environment π) (name : QualifiedName)
    (registration : Registration π) : (env.register name registration).2.stack = env.stack := by
  rcases register_cases env name registration with
    ⟨-, hregister⟩ | ⟨old, -, -, hregister⟩ | ⟨old, -, -, hregister⟩
  · rw [hregister]
    rfl
  · rw [hregister]
  · rw [hregister, notify_snd]
    rfl

theorem stack_effect (env : Environment π) (request : Request π) :
    (request.effect env).stack = env.stack := by
  cases request with
  | assign name value =>
      change (env.assign name value).2.stack = _
      rw [assign, notify_snd]
      rfl
  | notify name =>
      change (env.notify name).2.stack = _
      rw [notify_snd]
  | register name registration => exact env.stack_register name registration
  | _ => rfl

theorem stack_finish (env : Environment π) (name : QualifiedName) (serial began : Nat)
    (index : Option Int64) (result : Except Error Value) :
    (env.finish name serial began index result).stack = env.stack.tail := by
  unfold finish
  dsimp only
  split
  · split <;> rfl
  · rfl

section Tracing

variable {inner : Dialogue π (Except Error Value) → Environment π → List (Event π)}
  {run : Runner π (Except Error Value)}

/-- A recompute leads from where it was asked for to where it is finished. -/
theorem traces_recompute (meaning : Meaning π)
    (hinner : ∀ (d : Dialogue π (Except Error Value)) (env : Environment π),
      env.Traces (inner d env) (run d env))
    {launch : Launch π} (henabled : launch.Enabled env) :
    env.Traces (recompute inner run meaning launch env)
      ((run (launch.dialogue meaning) (launch.start env)).map fun outcome =>
        (outcome.1, launch.finish outcome.2 outcome.1)) := by
  have hprocedure := hinner (launch.dialogue meaning) (launch.start env)
  have hbegan : (Event.began launch).Enabled env := henabled
  unfold recompute
  cases hrun : run (launch.dialogue meaning) (launch.start env) with
  | none =>
      obtain ⟨last, hlast⟩ := hprocedure.exists_path
      rw [List.append_nil]
      exact ⟨⟨last, .cons hbegan hlast⟩, nofun, nofun⟩
  | some outcome =>
      obtain ⟨result, middle⟩ := outcome
      have hpath := hprocedure.path result middle hrun
      have hstack : middle.stack = launch.frame :: env.stack :=
        hprocedure.stack result middle hrun
      have hended : (Event.ended launch result).Enabled middle := by
        change middle.stack.head? = some launch.frame
        rw [hstack, List.head?_cons]
      have hall := Path.cons hbegan (hpath.concat hended)
      constructor
      case exists_path => exact ⟨_, hall⟩
      case path =>
        intro last after hafter
        cases hafter
        exact hall
      case stack =>
        intro last after hafter
        cases hafter
        rw [Launch.finish, stack_finish, hstack, List.tail_cons]

/-- A request leads, at once or by a recompute, to where it is replied to. -/
theorem traces_request (meaning : Meaning π)
    (hinner : ∀ (d : Dialogue π (Except Error Value)) (env : Environment π),
      env.Traces (inner d env) (run d env))
    (request : Request π) (env : Environment π) :
    env.Traces
      (match request.launch? env with
        | none => [.asked request]
        | some launch => recompute inner run meaning launch env)
      (respond run meaning request env) := by
  cases hlaunch : request.launch? env with
  | none =>
      obtain ⟨reply, hreply⟩ := exists_respond_of_launch?_eq_none meaning hlaunch
      have hpath : Path env [.asked request] (request.effect env) := .cons hlaunch (.nil _)
      rw [hreply]
      refine ⟨⟨_, hpath⟩, fun last after hafter => ?_, fun last after hafter => ?_⟩
      · cases hafter
        exact hpath
      · cases hafter
        exact env.stack_effect request
  | some launch =>
      obtain ⟨reply, hreply⟩ := exists_respond_of_launch? meaning hlaunch
      have htraces := traces_recompute meaning hinner (enabled_of_launch? hlaunch)
      rw [hreply]
      have hmapped := htraces.map reply
      rw [Option.map_map] at hmapped
      exact hmapped

theorem traces_events
    (hinner : ∀ (d : Dialogue π (Except Error Value)) (env : Environment π),
      env.Traces (inner d env) (run d env))
    (d : Dialogue π α) (env : Environment π) :
    env.Traces (events inner run meaning d env) (converse (respond run meaning) d env) := by
  induction d generalizing env with
  | done result =>
      refine ⟨⟨env, .nil env⟩, fun last after hafter => ?_, fun last after hafter => ?_⟩
      · cases hafter
        exact .nil env
      · cases hafter
        rfl
  | ask request next ih =>
      have hstep := traces_request meaning hinner request env
      rw [events, converse]
      cases hrespond : respond run meaning request env with
      | none =>
          rw [hrespond] at hstep
          rw [List.append_nil]
          refine ⟨hstep.exists_path, fun last after hafter => ?_, fun last after hafter => ?_⟩
          · cases hafter
          · cases hafter
      | some reaction =>
          rw [hrespond] at hstep
          exact hstep.append (ih reaction.1 reaction.2)

end Tracing

theorem traces_innerHistory (meaning : Meaning π) (depth : Nat)
    (d : Dialogue π (Except Error Value)) (env : Environment π) :
    env.Traces (innerHistory meaning depth d env) (nested meaning depth d env) := by
  induction depth generalizing d env with
  | zero => exact ⟨⟨env, .nil env⟩, nofun, nofun⟩
  | succ depth ih =>
      rw [nested, runWithin_eq_converse]
      exact traces_events ih d env

/-- The history of a run is a path of events. Where the run has a result, it ends there, with the
stack that it began with. -/
theorem traces_history (meaning : Meaning π) (depth : Nat) (d : Dialogue π α)
    (env : Environment π) :
    env.Traces (history meaning depth d env) (runWithin meaning depth d env) := by
  rw [runWithin_eq_converse]
  exact traces_events (traces_innerHistory meaning depth) d env

/-- The first events of a history lead to what they make of its environment. -/
theorem path_of_history {depth : Nat} {d : Dialogue π α} {events : List (Event π)}
    (h : events <+: history meaning depth d env) : Path env events (env.after events) := by
  obtain ⟨rest, hrest⟩ := h
  obtain ⟨last, hpath⟩ := (traces_history meaning depth d env).exists_path
  rw [← hrest] at hpath
  obtain ⟨middle, hmiddle, -⟩ := hpath.split
  rw [← hmiddle.eq_after]
  exact hmiddle

/-! ### Sessions -/

/-- The environment that a step begins in. -/
def cleared (env : Environment π) : Environment π := { env with journal := [] }

/-- The environments between two steps of sessions whose steps and procedures are dialogues of any
kind. -/
inductive Reachable (meaning : Meaning π) : Environment π → Prop where
  | initial (config : Config) (context : ContextPath) :
      Reachable meaning (initial config context)
  | step {α : Type} {env after : Environment π} {d : Dialogue π α} {result : α} :
      Reachable meaning env → env.cleared.run meaning d = some (result, after) →
        Reachable meaning after

/-- Whether an environment occurs in a session, between any two events of one of its steps. -/
def Occurs (meaning : Meaning π) (env : Environment π) : Prop :=
  ∃ (first : Environment π) (α : Type) (d : Dialogue π α) (depth : Nat) (events : List (Event π)),
    first.Reachable meaning ∧ events <+: history meaning depth d first.cleared ∧
      first.cleared.after events = env

end Environment
end Memograph
