import Memograph.Proofs.Attribution
import Memograph.Proofs.Lifecycle
import Memograph.Proofs.Sessions

/-! Writes. An assignment invalidates all that reads the variable. A body that assigns the variable
which it defines stores the value and invalidates nothing. While the definition is registered no
read can tell, since reads of the variable go to its dependency. It is otherwise where a definition
is run once without being registered: then what reads the variable keeps values that are not those
of the store. -/

namespace Memograph

/-! ### What procedures store -/

/-- Whether a registration that has a compiled body is that of the variable which the body
defines. -/
def Registration.Owned (name : QualifiedName) (registration : Registration Procedure) : Prop :=
  ∀ resolution body, registration.procedure = .compiled resolution body →
    resolution.owner = some name

/-- Whether a request stores nothing but under some names, and registers compiled bodies under no
names but their own. -/
def Request.KeepsTo (names : QualifiedName → Prop) : Request Procedure → Prop
  | .store name _ => names name
  | .register name registration => registration.Owned name
  | _ => True

/-- Whether a step runs a definition of a variable once, without registering it. -/
def Step.RunsOnce (name : QualifiedName) : Step → Prop
  | .runOnce definition _ _ =>
    ∃ context compiled, definition.compile context = .ok compiled ∧ compiled.name = name
  | _ => False

/-- Whether a procedure may store under a name: a compiled body under that of the variable which it
defines, and a script where it runs a definition once. -/
def Procedure.Stores (name : QualifiedName) : Procedure → Prop
  | .compiled resolution _ => resolution.owner = some name
  | .script steps _ => ∃ step ∈ steps, step.RunsOnce name

/-- A dialogue may be allowed more names. -/
theorem Dialogue.Confined.widen {α : Type} {names names' : QualifiedName → Prop} {d : Exchange α}
    (h : d.Confined (Request.KeepsTo names)) (hnames : ∀ name, names name → names' name) :
    d.Confined (Request.KeepsTo names') := by
  refine h.imp fun request hrequest => ?_
  cases request with
  | store name value => exact hnames name hrequest
  | _ => exact hrequest

theorem Expr.confined_dialogue (resolution : Resolution) (body : Expr) (index : Option Int64) :
    (body.dialogue resolution index : Exchange (Except Error Value)).Confined
      (Request.KeepsTo fun name => resolution.owner = some name) := by
  refine (follows_dialogue resolution body index).confined.imp fun request hrequest => ?_
  cases request with
  | store name value =>
      change resolution.owner = some name
      exact of_decide_eq_true (List.mem_filter.mp hrequest).2
  | register name registration => exact hrequest.elim
  | _ => trivial

namespace Exchange

open Dialogue

variable {names : QualifiedName → Prop}

theorem confined_read (slot : Int64) (name : NameRef) (index : Option IndexRef) :
    (read slot name index).Confined (Request.KeepsTo names) :=
  (confined_resolve trivial name).bind fun _ => (confined_request trivial).bind fun _ => trivial

theorem confined_readAll (slot : Int64) (reads : List (NameRef × Option IndexRef)) :
    (readAll slot reads).Confined (Request.KeepsTo names) := by
  induction reads with
  | nil => trivial
  | cons first rest ih =>
      exact (confined_read slot first.1 first.2).bind fun _ => ih.bind fun _ => trivial

/-- An expression that defines nothing stores nothing without a cascade. -/
theorem confined_eval (expr : Expr) : (eval expr).Confined (Request.KeepsTo names) := by
  refine (confined_inspect trivial).bind fun env => ?_
  exact (Expr.confined_dialogue (.topLevel env.context) expr none).widen nofun

theorem confined_register {name : QualifiedName} {registration : Registration Procedure}
    (h : registration.Owned name) :
    (register name registration).Confined (Request.KeepsTo names) := by
  refine (confined_request h).bind fun result => ?_
  cases result <;> trivial

/-- What is compiled is registered under the name that it was compiled for. -/
theorem confined_define (definition : Definition) (context : Option ContextPath) :
    (define definition context).Confined (Request.KeepsTo names) := by
  refine (confined_contextOrActive trivial context).bind fun context => ?_
  cases hcompile : definition.compile context with
  | error cause => trivial
  | ok compiled =>
      refine confined_register fun resolution body hprocedure => ?_
      cases hprocedure
      exact Definition.compile_owner hcompile

theorem confined_runOnce (definition : Definition) (context : Option ContextPath)
    (index : Option Int64) :
    (runOnce definition context index).Confined (Request.KeepsTo fun name =>
      ∃ context compiled, definition.compile context = .ok compiled ∧ compiled.name = name) := by
  refine (confined_contextOrActive trivial context).bind fun context => ?_
  cases hcompile : definition.compile context with
  | error cause => trivial
  | ok compiled =>
      have hbody := Expr.confined_dialogue compiled.resolution compiled.body index
      rw [Definition.compile_owner hcompile] at hbody
      refine (hbody.widen fun name hname => ?_).bind fun _ => trivial
      exact ⟨context, compiled, hcompile, Option.some.inj hname⟩

theorem confined_ofDependency (name : NameRef)
    (answer : QualifiedName → Option (Dependency Procedure) → Answer) :
    (ofDependency name answer).Confined (Request.KeepsTo names) :=
  (confined_resolve trivial name).bind fun _ => (confined_inspect trivial).bind fun _ => trivial

end Exchange

open Dialogue in
/-- A step stores without a cascade only where it runs a definition once. -/
theorem Step.confined_dialogue (step : Step) (slot : Int64) :
    (step.dialogue slot).Confined (Request.KeepsTo fun name => step.RunsOnce name) := by
  cases step with
  | enter context => exact (confined_request trivial).bind fun _ => trivial
  | assign name value =>
      exact (Exchange.confined_resolve trivial name).bind fun _ =>
        (confined_request trivial).bind fun _ => trivial
  | notify name =>
      exact (Exchange.confined_resolve trivial name).bind fun _ =>
        (confined_request trivial).bind fun _ => trivial
  | define definition context => exact Exchange.confined_define definition context
  | register name shape reads steps verdict =>
      refine (Exchange.confined_resolve trivial name).bind fun _ =>
        (Exchange.confined_resolveAll trivial reads).bind fun _ => Exchange.confined_register ?_
      exact nofun
  | read name index => exact Exchange.confined_read slot name index
  | evaluate name index =>
      exact (Exchange.confined_resolve trivial name).bind fun _ =>
        (confined_request trivial).bind fun _ => trivial
  | eval expr => exact (Exchange.confined_eval expr).bind fun _ => trivial
  | runOnce definition context index => exact Exchange.confined_runOnce definition context _
  | invalidate name =>
      refine (Exchange.confined_resolve trivial name).bind fun _ =>
        (Exchange.confined_inspect trivial).bind fun env => ?_
      split
      · exact (confined_request trivial).bind fun _ => trivial
      · trivial
  | stored name =>
      exact (Exchange.confined_resolve trivial name).bind fun _ =>
        (Exchange.confined_inspect trivial).bind fun _ => trivial
  | readers name =>
      exact (Exchange.confined_resolve trivial name).bind fun _ =>
        (Exchange.confined_inspect trivial).bind fun _ => trivial
  | status name index =>
      rw [Step.dialogue]
      exact Exchange.confined_ofDependency name _
  | source name =>
      rw [Step.dialogue]
      exact Exchange.confined_ofDependency name _
  | recomputes name =>
      rw [Step.dialogue]
      exact Exchange.confined_ofDependency name _
  | contains name =>
      rw [Step.dialogue]
      exact Exchange.confined_ofDependency name _
  | dependency name => exact Exchange.confined_ofDependency name _
  | describe name => exact Exchange.confined_ofDependency name _
  | names => exact (Exchange.confined_inspect trivial).bind fun _ => trivial
  | config => exact (Exchange.confined_inspect trivial).bind fun _ => trivial
  | items => exact (Exchange.confined_inspect trivial).bind fun _ => trivial
  | sleep milliseconds => trivial
  | several reads => exact (Exchange.confined_readAll slot reads).bind fun _ => trivial
  | refused failure => trivial

open Dialogue in
theorem Step.confined_noteAll (slot : Int64) (steps : List Step) :
    (noteAll slot steps).Confined
      (Request.KeepsTo fun name => ∃ step ∈ steps, step.RunsOnce name) := by
  induction steps with
  | nil => trivial
  | cons first rest ih =>
      refine ((first.confined_dialogue slot).widen fun name hname => ?_).bind fun _ =>
        (confined_request trivial).bind fun _ => ih.widen fun name hname => ?_
      · exact ⟨first, List.mem_cons_self, hname⟩
      · obtain ⟨step, hmem, hname⟩ := hname
        exact ⟨step, List.mem_cons_of_mem first hmem, hname⟩

open Dialogue in
/-- A procedure stores without a cascade only under names that it may store under. -/
theorem Procedure.confined_dialogue (procedure : Procedure) (slot : Option Int64) :
    (Procedure.dialogue procedure slot).Confined
      (Request.KeepsTo fun name => procedure.Stores name) := by
  cases procedure with
  | compiled resolution body => exact Expr.confined_dialogue resolution body slot
  | script steps verdict =>
      refine (Step.confined_noteAll _ steps).bind fun _ => ?_
      unfold Verdict.dialogue
      split
      · exact (Exchange.confined_inspect trivial).bind fun _ => trivial
      · trivial
      · split
        · exact Exchange.confined_eval _
        · trivial

/-! ### What is registered -/

section Registered

variable {π : Type} {env after : Environment π} {event : Event π}
  {R : QualifiedName → Registration π → Prop}

theorem Event.toRegistration_alter (env : Environment π) (dependency : Dependency π)
    (event : Event π) :
    (event.alter env dependency).toRegistration = dependency.toRegistration := by
  cases event with
  | asked request =>
      dsimp only [alter]
      split <;> rfl
  | began launch =>
      dsimp only [alter]
      split <;> rfl
  | ended launch result =>
      dsimp only [alter]
      split
      · exact congrArg Prod.fst (dependency.signature_finish _ _ _)
      · rfl

namespace Environment

/-- Nothing but a registration changes what is registered. -/
theorem Identified.allRegistered_apply (h : env.Identified) (henabled : event.Enabled env)
    (henv : env.AllRegistered R)
    (hnew : ∀ name registration, event = .asked (.register name registration) →
      R name registration) : (event.apply env).AllRegistered R := by
  have hkept : event.installs? env = none → (event.apply env).AllRegistered R := by
    intro hinstalls key dependency hkey
    rw [h.get?_apply henabled (by rw [hinstalls]; exact nofun), Option.map_eq_some_iff] at hkey
    obtain ⟨before, hbefore, rfl⟩ := hkey
    rw [Event.toRegistration_alter]
    exact henv key before hbefore
  cases event with
  | began launch => exact hkept rfl
  | ended launch result => exact hkept rfl
  | asked request =>
      cases request with
      | register name registration =>
          exact allRegistered_register henv (hnew name registration rfl)
      | _ => exact hkept rfl

theorem Lifecycle.allRegistered_path {events : List (Event π)} (h : env.Lifecycle)
    (hpath : Path env events after) (henv : env.AllRegistered R)
    (hnew : ∀ name registration, .asked (.register name registration) ∈ events →
      R name registration) : after.AllRegistered R := by
  induction hpath with
  | nil => exact henv
  | cons henabled _ ih =>
      refine ih (h.apply henabled) ?_ fun name registration hmem =>
        hnew name registration (List.mem_cons_of_mem _ hmem)
      refine h.allRegistered_apply henabled henv fun name registration hevent => ?_
      exact hnew name registration (hevent ▸ List.mem_cons_self)

end Environment
end Registered

namespace Environment

variable {env after : Environment Procedure} {step : Step} {depth : Nat}
  {events : List (Event Procedure)}

/-- Whether each compiled body is registered under the name that it was compiled for. -/
def Owned (env : Environment Procedure) : Prop :=
  env.AllRegistered fun name registration => registration.Owned name

theorem attributed_step (env : Environment Procedure) (step : Step) (depth : Nat) :
    env.Attributed (Request.KeepsTo fun name => step.RunsOnce name)
      (fun procedure => Request.KeepsTo fun name => procedure.Stores name)
      (history Procedure.dialogue depth (step.dialogue 0) env) :=
  attributed_history Procedure.confined_dialogue depth (step.confined_dialogue 0) env

/-- A step registers compiled bodies under their own names only. -/
theorem Owned.path (h : env.Owned) (hlifecycle : env.Lifecycle) (hpath : Path env events after)
    (hevents : events <+: history Procedure.dialogue depth (step.dialogue 0) env) :
    after.Owned := by
  refine hlifecycle.allRegistered_path hpath h fun name registration hmem => ?_
  obtain ⟨before, rest, rfl⟩ := List.append_of_mem hmem
  obtain ⟨later, hlater⟩ := hevents
  rw [List.append_assoc, List.cons_append] at hlater
  rcases env.attributed_step step depth before _ _ hlater.symm with
    ⟨-, howned⟩ | ⟨launch, -, -, howned⟩
  · exact howned
  · exact howned

/-- While a compiled body runs, the variable which it defines has a dependency. -/
theorem Owned.get?_of_compiled (h : env.Owned) (hlifecycle : env.Lifecycle)
    (hpath : Path env events after)
    (hevents : events <+: history Procedure.dialogue depth (step.dialogue 0) env)
    {launch : Launch Procedure} (hlaunch : .began launch ∈ events)
    (htop : after.stack.head? = some launch.frame) {resolution : Resolution} {body : Expr}
    (hprocedure : launch.dependency.procedure = .compiled resolution body)
    {name : QualifiedName} (howner : resolution.owner = some name) :
    ∃ dependency, after.dependencies.get? name = some dependency := by
  have htaken := (hlifecycle.path hpath).taken launch.frame (List.mem_of_head? htop)
  obtain ⟨before, rest, rfl⟩ := List.append_of_mem hlaunch
  obtain ⟨middle, hbefore, hrest⟩ := hpath.split
  have howned := h.path hlifecycle hbefore ((List.prefix_append _ _).trans hevents)
  cases hrest with
  | cons henabled _ =>
      have hname := howned launch.name launch.dependency henabled.registered resolution body
        hprocedure
      rw [howner, Option.some.injEq] at hname
      rwa [hname]

end Environment

theorem Session.owned_of_takeAll {steps : List Step} {env after : Environment Procedure}
    {reports : List StepReport} (hreachable : env.Reachable Procedure.dialogue) (henv : env.Owned)
    (h : takeAll steps env = some (reports, after)) : after.Owned := by
  induction steps generalizing env reports with
  | nil =>
      cases h
      exact henv
  | cons step steps ih =>
      obtain ⟨answer, middle, later, hrun, hall⟩ := exists_run_of_takeAll h
      have hpath := (Environment.traces_history Procedure.dialogue env.cleared.depthLimit
        (step.dialogue 0) env.cleared).path _ _ hrun
      have howned : env.cleared.Owned := henv
      exact ih (.step hreachable hrun) (howned.path hreachable.lifecycle_and_stack.1.cleared hpath
        (List.prefix_refl _)) hall

/-! ### Who hears of a write -/

section Writing

variable {π : Type}

/-- The name that an event writes a stored value under. -/
def Event.writes? : Event π → Option QualifiedName
  | .asked (.assign name _) | .asked (.store name _) => some name
  | _ => none

namespace Environment

/-- Whether nothing that a name reaches has a value. -/
def Valueless (env : Environment π) (name : QualifiedName) : Prop :=
  ∀ reader dependency, env.Reaches name reader →
    env.dependencies.get? reader = some dependency → ¬dependency.HasValue

theorem valueless_assign (env : Environment π) (name : QualifiedName) (value : Value) :
    (env.assign name value).2.Valueless name := by
  intro reader dependency hreaches hreader
  refine not_hasValue_notify (env.store name value) ?_ hreader
  rwa [assign, reaches_of_readers_eq (by rw [notify_snd])] at hreaches

/-- Only a write changes what is stored under a name. -/
theorem writes?_of_stored_ne {env : Environment π} {event : Event π} {name : QualifiedName}
    (h : (event.apply env).stored.get? name ≠ env.stored.get? name) :
    event.writes? = some name := by
  have hinsert : ∀ (other : QualifiedName) (value : Value),
      (env.stored.insert other value).get? name ≠ env.stored.get? name →
        some other = some name := by
    intro other value hne
    rw [Table.get?_insert] at hne
    split at hne
    · next heq => rw [heq]
    · exact absurd rfl hne
  cases event with
  | began launch => exact absurd rfl h
  | ended launch result =>
      refine absurd ?_ h
      change (env.finish _ _ _ _ _).stored.get? name = _
      unfold finish
      dsimp only
      split
      · split <;> rfl
      · rfl
  | asked request =>
      cases request with
      | assign other value =>
          refine hinsert other value ?_
          change (env.assign other value).2.stored.get? name ≠ _ at h
          rwa [assign, notify_snd] at h
      | store other value => exact hinsert other value h
      | notify other =>
          refine absurd ?_ h
          change (env.notify other).2.stored.get? name = _
          rw [notify_snd]
      | register other registration =>
          refine absurd ?_ h
          change (env.register other registration).2.stored.get? name = _
          rcases register_cases env other registration with
            ⟨-, hregister⟩ | ⟨old, -, -, hregister⟩ | ⟨old, -, -, hregister⟩
          · rw [hregister]
            rfl
          · rw [hregister]
          · rw [hregister, notify_snd]
            rfl
      | _ => exact absurd rfl h

end Environment
end Writing

/-- Whether a step is one that may ask where a step of a session has come to some events. It is that
step itself or, while recomputes are running, one of the script of the innermost of them. -/
inductive Step.Underway (step : Step) (events : List (Event Procedure))
    (there : Environment Procedure) : Step → Prop where
  | outermost (hstack : there.stack = []) : Underway step events there step
  | script {launch : Launch Procedure} {steps : List Step} {verdict : Verdict} {inner : Step}
      (hlaunch : .began launch ∈ events) (htop : there.stack.head? = some launch.frame)
      (hprocedure : launch.dependency.procedure = .script steps verdict)
      (hinner : inner ∈ steps) : Underway step events there inner

namespace Session

open Environment

/-- Whatever writes the stored value of a variable without a dependency, nothing that reads the
variable has a value after the write, unless the body of a definition of the variable is run once
that is not registered. Then all keep the values that they have. -/
theorem write_reaches_readers {config : Config} {context : ContextPath} {before : List Step}
    {reports : List StepReport} {env : Environment Procedure} {step : Step} {depth : Nat}
    {events : List (Event Procedure)} {event : Event Procedure}
    (htake : takeAll before (.initial config context) = some (reports, env))
    (hevents : events ++ [event] <+:
      history Procedure.dialogue depth (step.dialogue 0) env.cleared) :
    (∀ name, (event.apply (env.cleared.after events)).stored.get? name ≠
        (env.cleared.after events).stored.get? name → event.writes? = some name) ∧
    ∀ name, event.writes? = some name →
      (env.cleared.after events).dependencies.get? name = none →
        (event.apply (env.cleared.after events)).Valueless name ∨
        (∃ inner, step.Underway events (env.cleared.after events) inner ∧ inner.RunsOnce name) ∧
          ((event.apply (env.cleared.after events)).Valueless name ↔
            (env.cleared.after events).Valueless name) := by
  have hreachable := reachable_of_takeAll (.initial config context) htake
  obtain ⟨hlifecycle, hstack⟩ := hreachable.lifecycle_and_stack
  have howned : env.Owned :=
    owned_of_takeAll (.initial config context) (fun _ _ hname => by cases hname) htake
  obtain ⟨later, hlater⟩ := hevents
  rw [List.append_assoc, List.singleton_append] at hlater
  obtain ⟨last, hpath⟩ :=
    (traces_history Procedure.dialogue depth (step.dialogue 0) env.cleared).exists_path
  rw [← hlater] at hpath
  obtain ⟨there, hbefore, -⟩ := hpath.split
  rw [← hbefore.eq_after]
  refine ⟨fun name => writes?_of_stored_ne, fun name hwrites hname => ?_⟩
  cases event with
  | began launch => cases hwrites
  | ended launch result => cases hwrites
  | asked request =>
      cases request with
      | assign other value =>
          cases hwrites
          exact Or.inl (there.valueless_assign name value)
      | store other value =>
          cases hwrites
          refine Or.inr ⟨?_, Iff.rfl⟩
          rcases env.cleared.attributed_step step depth events _ later hlater.symm with
            ⟨hsame, hruns⟩ | ⟨launch, hlaunch, htop, hstores⟩
          · rw [← hbefore.eq_after] at hsame
            exact ⟨step, .outermost (hsame.trans hstack), hruns⟩
          · rw [← hbefore.eq_after] at htop
            change launch.dependency.procedure.Stores name at hstores
            cases hprocedure : launch.dependency.procedure with
            | script steps verdict =>
                rw [hprocedure] at hstores
                obtain ⟨inner, hinner, hruns⟩ := hstores
                exact ⟨inner, .script hlaunch htop hprocedure hinner, hruns⟩
            | compiled resolution body =>
                rw [hprocedure] at hstores
                have hprefix : events <+:
                    history Procedure.dialogue depth (step.dialogue 0) env.cleared :=
                  ⟨_, hlater⟩
                have hcleared : env.cleared.Owned := howned
                obtain ⟨dependency, htaken⟩ := hcleared.get?_of_compiled hlifecycle.cleared
                  hbefore hprefix hlaunch htop hprocedure hstores
                rw [hname] at htaken
                cases htaken
      | _ => cases hwrites

/-- A variable reads another one, which has no dependency, and has a value. -/
def reading : List Step :=
  [.assign (.written "y") (.int 1), .define (.ofBody "x" none (.name "y") "") none,
    .read (.written "x") none]

/-- A definition of the other variable, run once, stores under its name. -/
def storing : Step :=
  .runOnce (.ofBody "y" none (.assign "y" (.constant (.int 5))) "") none none

theorem write_reaches_readers_storing :
    ∃ reports env events event, takeAll reading (.initial .standard .root) = some (reports, env) ∧
      events ++ [event] <+: history Procedure.dialogue 1 (storing.dialogue 0) env.cleared ∧
      event.writes? = some ⟨.root, "y"⟩ ∧
      ¬(event.apply (env.cleared.after events)).Valueless ⟨.root, "y"⟩ ∧
      ∃ inner, storing.Underway events (env.cleared.after events) inner ∧
        inner.RunsOnce ⟨.root, "y"⟩ := by
  have hcomputed : ((takeAll reading (.initial .standard .root)).bind fun outcome =>
      let all := history Procedure.dialogue 1 (storing.dialogue 0) outcome.2.cleared
      let there := outcome.2.cleared.after (all.take 1)
      all[1]?.bind fun event =>
        ((event.apply there).dependencies.get? ⟨.root, "x"⟩).bind fun dependency =>
          ((dependency.status none).value?).map fun _ =>
            decide (event.writes? = some ⟨.root, "y"⟩ ∧
              (there.dependencies.get? ⟨.root, "y"⟩).isNone = true ∧
              ⟨.root, "x"⟩ ∈ (event.apply there).readersOf ⟨.root, "y"⟩)) = some true := by
    decide +kernel
  obtain ⟨⟨reports, env⟩, htake, hcomputed⟩ := Option.bind_eq_some_iff.mp hcomputed
  obtain ⟨event, hevent, hcomputed⟩ := Option.bind_eq_some_iff.mp hcomputed
  obtain ⟨dependency, hreader, hcomputed⟩ := Option.bind_eq_some_iff.mp hcomputed
  obtain ⟨value, hvalue, hdecided⟩ := Option.map_eq_some_iff.mp hcomputed
  obtain ⟨hwrites, hname, hreads⟩ := of_decide_eq_true hdecided
  have hprefix : (history Procedure.dialogue 1 (storing.dialogue 0) env.cleared).take 1 ++
      [event] <+: history Procedure.dialogue 1 (storing.dialogue 0) env.cleared := by
    have hsplit := List.take_add_one
      (l := history Procedure.dialogue 1 (storing.dialogue 0) env.cleared) (i := 1)
    rw [hevent, Option.toList_some] at hsplit
    rw [← hsplit]
    exact List.take_prefix _ _
  have hvalued : ¬(event.apply (env.cleared.after ((history Procedure.dialogue 1
      (storing.dialogue 0) env.cleared).take 1))).Valueless ⟨.root, "y"⟩ := fun hvalueless =>
    hvalueless _ dependency (.single hreads) hreader ⟨none, value, Status.value?_eq_some hvalue⟩
  refine ⟨reports, env, _, event, htake, hprefix, hwrites, hvalued, ?_⟩
  obtain ⟨-, hwrite⟩ := write_reaches_readers htake hprefix
  rcases hwrite _ hwrites (Option.isNone_iff_eq_none.mp hname) with hvalueless | ⟨hruns, -⟩
  · exact absurd hvalueless hvalued
  · exact hruns

end Session
end Memograph
