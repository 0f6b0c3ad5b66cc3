import Memograph.Proofs.Nesting
import Memograph.Proofs.Steps

/-! Sessions of assignments, definitions, reads and invalidations. Their environments are orderly
between any two steps: what is registered is compiled and indexed under its reads, and nothing is
being recomputed. Each step has a report, and whatever assignments, cascades, registrations and
runs keep holds after the whole session. -/

namespace Memograph

namespace Environment

section Registering

variable {π : Type} {env : Environment π} {name : QualifiedName} {registration : Registration π}

theorem Installs.allRegistered {P : QualifiedName → Registration π → Prop} {after : Environment π}
    (h : env.Installs after name registration) (henv : env.AllRegistered P)
    (hnew : P name registration) : after.AllRegistered P := by
  intro key dependency hkey
  rw [h.get?] at hkey
  by_cases hname : key = name
  · rw [if_pos hname, Option.some.injEq] at hkey
    rw [hname, ← hkey]
    exact hnew
  · rw [if_neg hname] at hkey
    exact henv key dependency hkey

theorem allRegistered_register {P : QualifiedName → Registration π → Prop}
    (henv : env.AllRegistered P) (hnew : P name registration) :
    (env.register name registration).2.AllRegistered P := by
  rcases register_cases env name registration with
    ⟨-, hregister⟩ | ⟨old, -, -, hregister⟩ | ⟨old, -, -, hregister⟩
  · rw [hregister]
    exact (installs_enroll env name registration).allRegistered henv hnew
  · rw [hregister]
    exact henv
  · rw [hregister]
    exact (sameDependencies_notify _ name).allRegistered
      ((installs_supersede env name old registration).allRegistered henv hnew)

theorem indexed_enroll (henv : env.Indexed) (hname : env.dependencies.get? name = none) :
    (env.enroll name registration).Indexed := by
  intro read reader
  rw [mem_readersOf_enroll_iff, (installs_enroll env name registration).get?, henv read reader]
  by_cases hreader : reader = name
  · subst hreader
    simp [hname, Dependency.ofRegistration]
  · simp [hreader]

theorem indexed_supersede (henv : env.Indexed) {old : Dependency π}
    (hname : env.dependencies.get? name = some old) :
    (env.supersede name old registration).Indexed := by
  intro read reader
  rw [mem_readersOf_supersede_iff, (installs_supersede env name old registration).get?,
    henv read reader]
  by_cases hreader : reader = name
  · subst hreader
    simp [hname, Dependency.ofRegistration]
  · simp [hreader]

theorem indexed_register (henv : env.Indexed) :
    (env.register name registration).2.Indexed := by
  rcases register_cases env name registration with
    ⟨hname, hregister⟩ | ⟨old, -, -, hregister⟩ | ⟨old, hname, -, hregister⟩
  · rw [hregister]
    exact indexed_enroll henv hname
  · rw [hregister]
    exact henv
  · rw [hregister]
    exact (sameDependencies_notify _ name).indexed (indexed_supersede henv hname)

/-- Whether nothing is being recomputed. -/
structure Idle (env : Environment π) : Prop where
  stack : env.stack = []
  slots : ∀ name slot, env.statusOf name slot ≠ .evaluating

theorem Idle.underway (h : env.Idle) : env.underway = [] := by
  rw [Environment.underway, h.stack, List.map_nil]

theorem Idle.balanced (h : env.Idle) : env.Balanced := by
  have hunderway := h.underway
  constructor
  · intro name slot
    rw [hunderway]
    exact iff_of_false (h.slots name slot) List.not_mem_nil
  · rw [hunderway]
    exact List.nodup_nil
  · rw [hunderway]
    exact fun _ hentry => absurd hentry List.not_mem_nil

theorem Evolves.idle {after : Environment π} (h : env.Evolves after) (henv : env.Idle) :
    after.Idle :=
  ⟨h.stack.trans henv.stack, fun name slot => mt (h.running name slot).mp (henv.slots name slot)⟩

theorem Installs.statusOf {after : Environment π} (h : env.Installs after name registration)
    (key : QualifiedName) (slot : Option Int64) :
    after.statusOf key slot = if key = name then .uninitialized else env.statusOf key slot := by
  rw [Environment.statusOf, h.get?]
  by_cases hname : key = name
  · rw [if_pos hname, if_pos hname]
    rfl
  · rw [if_neg hname, if_neg hname, Environment.statusOf]

theorem Installs.of_statusOf_eq_valid {after : Environment π}
    (h : env.Installs after name registration) {key : QualifiedName} {slot : Option Int64}
    {value : Value} (hvalid : after.statusOf key slot = .valid value) :
    key ≠ name ∧ env.statusOf key slot = .valid value := by
  rw [h.statusOf] at hvalid
  split at hvalid
  · cases hvalid
  · next hne => exact ⟨hne, hvalid⟩

theorem Installs.idle {after : Environment π} (h : env.Installs after name registration)
    (henv : env.Idle) : after.Idle := by
  refine ⟨h.stack.trans henv.stack, fun key slot => ?_⟩
  rw [h.statusOf]
  split
  · exact nofun
  · exact henv.slots key slot

theorem idle_register (hindexed : env.Indexed) (henv : env.Idle) :
    (env.register name registration).2.Idle := by
  rcases register_cases env name registration with
    ⟨-, hregister⟩ | ⟨old, -, -, hregister⟩ | ⟨old, hname, -, hregister⟩
  · rw [hregister]
    exact (installs_enroll env name registration).idle henv
  · rw [hregister]
    exact henv
  · rw [hregister]
    exact (evolves_notify (indexed_supersede hindexed hname) name).idle
      ((installs_supersede env name old registration).idle henv)

end Registering

/-- Whether an environment is as sessions leave it between two steps. -/
structure Orderly (env : Environment Procedure) : Prop where
  regular : env.Regular Procedure.dialogue
  idle : env.Idle

theorem orderly_initial (config : Config) (context : ContextPath) :
    (initial config context : Environment Procedure).Orderly where
  regular :=
    { disciplined := fun _ _ hname => by cases hname
      indexed := fun read reader => by
        constructor
        · intro hreader
          exact absurd hreader List.not_mem_nil
        · rintro ⟨dependency, hreader, -⟩
          cases hreader }
  idle := ⟨rfl, fun _ _ => nofun⟩

theorem Evolves.orderly {env after : Environment Procedure} (h : env.Evolves after)
    (henv : env.Orderly) : after.Orderly :=
  ⟨h.same.regular henv.regular, h.idle henv.idle⟩

end Environment

/-! ### Compiled definitions -/

namespace Definition

variable {definition : Definition} {context : ContextPath} {compiled : Compiled}

/-- What a definition registers whose usage is that of its body keeps to its reads. -/
theorem compile_disciplined (husage : definition.usage = Usage.ofExpr definition.body)
    (h : definition.compile context = .ok compiled) :
    compiled.registration.Disciplined Procedure.dialogue compiled.name := by
  have hreads := mem_compile_reads_iff husage h
  refine ⟨Footprint.ofExpr compiled.resolution compiled.body, fun name => (hreads name).mpr, ?_, ?_⟩
  · intro name hname
    have howner := of_decide_eq_true (List.mem_filter.mp hname).2
    rw [compile_owner h, Option.some.injEq] at howner
    rw [howner]
    exact List.mem_singleton_self name
  · intro index
    exact (Expr.follows_dialogue compiled.resolution compiled.body index).imp
      fun asked _ hasked name hname => hasked ((hreads name).mp hname)

end Definition

/-! ### Permitted steps -/

/-- Whether a definition would not be the first to define a name that has a stored value. -/
def Environment.welcomes (env : Environment Procedure) (definition : Definition)
    (context : ContextPath) : Bool :=
  match definition.compile context with
  | .error _ => true
  | .ok compiled =>
    env.dependencies.contains compiled.name || !env.stored.contains compiled.name

/-- Whether a step is an assignment, a read, a top-level evaluation, an invalidation, a change of
context or a welcome definition whose usage is that of its body and which is allowed. -/
def Step.permitted (allowed : Definition → Bool) (env : Environment Procedure) : Step → Bool
  | .enter _ | .assign _ _ | .read _ _ | .eval _ | .invalidate _ | .notify _ => true
  | .define definition context =>
    definition.usage == Usage.ofExpr definition.body && allowed definition &&
      env.welcomes definition (context.getD env.context)
  | _ => false

/-- Whether each of some steps is permitted when it is taken. -/
def Session.permits (allowed : Definition → Bool) : List Step → Environment Procedure → Bool
  | [], _ => true
  | step :: steps, env =>
    step.permitted allowed env && (take step env).all fun (_, after) => permits allowed steps after

/-- Whether a property of environments is one that permitted steps keep which run nothing. -/
structure KeptAtOnce (allowed : Definition → Bool) (I : Environment Procedure → Prop) : Prop where
  enter : ∀ {env : Environment Procedure} context, env.Orderly → I env → I { env with context }
  clear : ∀ {env : Environment Procedure} journal, env.Orderly → I env → I { env with journal }
  assign : ∀ {env : Environment Procedure} name value, env.Orderly → I env →
    I (env.assign name value).2
  notify : ∀ {env : Environment Procedure} name, env.Orderly → I env → I (env.notify name).2
  register : ∀ {env : Environment Procedure} {definition context compiled}, env.Orderly → I env →
    definition.usage = Usage.ofExpr definition.body → allowed definition = true →
    definition.compile context = .ok compiled →
    (env.dependencies.get? compiled.name = none → env.stored.get? compiled.name = none) →
      I (env.register compiled.name compiled.registration).2

/-- Whether a property of environments is one that everything keeps which permitted steps do. -/
structure Kept (allowed : Definition → Bool) (I : Environment Procedure → Prop) : Prop
    extends KeptAtOnce allowed I where
  run : ∀ {env after : Environment Procedure} {d : Exchange (Except Error Value)}
    {footprint : Footprint} {result}, env.Orderly → I env →
    d.Follows footprint (fun _ _ => True) [] → footprint.stores = [] →
    env.run Procedure.dialogue d = some (result, after) → I after

namespace Environment.Orderly

variable {env : Environment Procedure}

theorem clear (h : env.Orderly) (journal : List Answer) : { env with journal }.Orderly :=
  ⟨⟨h.regular.disciplined, h.regular.indexed⟩, ⟨h.idle.stack, h.idle.slots⟩⟩

theorem enter (h : env.Orderly) (context : ContextPath) : { env with context }.Orderly :=
  ⟨⟨h.regular.disciplined, h.regular.indexed⟩, ⟨h.idle.stack, h.idle.slots⟩⟩

theorem register (h : env.Orderly) {name : QualifiedName} {registration : Registration Procedure}
    (hnew : registration.Disciplined Procedure.dialogue name) :
    (env.register name registration).2.Orderly where
  regular := ⟨allRegistered_register h.regular.disciplined hnew, indexed_register h.regular.indexed⟩
  idle := idle_register h.regular.indexed h.idle

/-- A dialogue without stores has a result, and everything is orderly after it. -/
theorem exists_run (h : env.Orderly) {d : Exchange (Except Error Value)} {footprint : Footprint}
    (hd : d.Follows footprint (fun _ _ => True) []) (hstores : footprint.stores = []) :
    ∃ result after, env.run Procedure.dialogue d = some (result, after) ∧ env.Evolves after := by
  have howns := env.owns_of_eq_nil hstores
  obtain ⟨⟨result, after⟩, hrun⟩ :=
    Environment.exists_run hd h.regular h.idle.balanced howns
  exact ⟨result, after, hrun, (steady_evolves _).runWithin hd h.regular howns hrun⟩

end Environment.Orderly

namespace Session

variable {allowed : Definition → Bool} {env : Environment Procedure}

theorem take_of_run {step : Step} {after : Environment Procedure} {answer : Answer}
    (h : { env with journal := [] }.run Procedure.dialogue (step.dialogue 0) =
      some (answer, after)) :
    take step env = some (⟨answer, after.journal, after.items⟩, after) := by
  unfold take
  dsimp only
  rw [h, Option.map_some]

theorem takeAll_cons {step : Step} {steps : List Step} {middle after : Environment Procedure}
    {report : StepReport} {reports : List StepReport} (h : take step env = some (report, middle))
    (hall : takeAll steps middle = some (reports, after)) :
    takeAll (step :: steps) env = some (report :: reports, after) := by
  rw [takeAll, h, Option.bind_eq_bind, Option.bind_some]
  dsimp only
  rw [hall]
  rfl

theorem takeAll_concat {steps : List Step} {step : Step} {middle after : Environment Procedure}
    {reports : List StepReport} {report : StepReport}
    (hall : takeAll steps env = some (reports, middle))
    (hlast : take step middle = some (report, after)) :
    takeAll (steps ++ [step]) env = some (reports ++ [report], after) := by
  induction steps generalizing env reports with
  | nil =>
      cases hall
      exact takeAll_cons hlast rfl
  | cons first steps ih =>
      rw [takeAll, Option.bind_eq_bind, Option.bind_eq_some_iff] at hall
      obtain ⟨⟨report', later⟩, hfirst, hall⟩ := hall
      dsimp only at hall
      rw [Option.bind_eq_bind, Option.bind_eq_some_iff] at hall
      obtain ⟨⟨reports', last⟩, hrest, heq⟩ := hall
      cases heq
      exact takeAll_cons hfirst (ih hrest)

theorem permits_append (before rest : List Step) :
    permits allowed (before ++ rest) env =
      (permits allowed before env &&
        (takeAll before env).all fun (_, after) => permits allowed rest after) := by
  induction before generalizing env with
  | nil => rfl
  | cons step before ih =>
      rw [List.cons_append, permits, permits, takeAll]
      cases take step env with
      | none => simp
      | some outcome =>
          obtain ⟨report, middle⟩ := outcome
          dsimp only [Option.all_some, Option.bind_eq_bind, Option.bind_some]
          rw [ih, Bool.and_assoc]
          cases takeAll before middle <;> rfl

theorem permits_of_append {before rest : List Step}
    (h : permits allowed (before ++ rest) env = true) : permits allowed before env = true := by
  rw [permits_append, Bool.and_eq_true] at h
  exact h.1

/-- A step that is permitted in any environment is permitted behind permitted ones. -/
theorem permits_concat {steps : List Step} {step : Step} (h : permits allowed steps env = true)
    (hstep : ∀ env, step.permitted allowed env = true) :
    permits allowed (steps ++ [step]) env = true := by
  rw [permits_append, h, Bool.true_and, Option.all_eq_true]
  rintro ⟨reports, after⟩ -
  change permits allowed [step] after = true
  rw [permits, hstep, Bool.true_and, Option.all_eq_true]
  exact fun _ _ => rfl

theorem permitted_define {definition : Definition} {context : Option ContextPath}
    (h : (Step.define definition context).permitted allowed env = true) :
    definition.usage = Usage.ofExpr definition.body ∧ allowed definition = true ∧
      ∀ compiled, definition.compile (context.getD env.context) = .ok compiled →
        env.dependencies.get? compiled.name = none → env.stored.get? compiled.name = none := by
  simp only [Step.permitted, Bool.and_eq_true, beq_iff_eq] at h
  refine ⟨h.1.1, h.1.2, fun compiled hcompile hname => ?_⟩
  have hwelcome := h.2
  simp only [Environment.welcomes, hcompile, Table.contains, hname] at hwelcome
  simpa using hwelcome

/-- A permitted step that is neither a read nor a top-level evaluation runs nothing. -/
theorem run_keptAtOnce {I : Environment Procedure → Prop} (hI : KeptAtOnce allowed I) {step : Step}
    (hstep : step.permitted allowed env = true)
    (hquery : step.query (π := Procedure) env.context = none) (horderly : env.Orderly)
    (henv : I env) :
    ∃ answer after, env.run Procedure.dialogue (step.dialogue 0) = some (answer, after) ∧
      after.Orderly ∧ I after := by
  cases step with
  | enter context =>
      exact ⟨_, _, Step.run_enter _ env context, horderly.enter context,
        hI.enter context horderly henv⟩
  | assign name value =>
      exact ⟨_, _, Step.run_assign _ env name value,
        (Environment.evolves_assign horderly.regular.indexed _ value).orderly horderly,
        hI.assign _ value horderly henv⟩
  | notify name =>
      exact ⟨_, _, Step.run_notify _ env name,
        (Environment.evolves_notify horderly.regular.indexed _).orderly horderly,
        hI.notify _ horderly henv⟩
  | invalidate name =>
      rw [Step.run_invalidate]
      split
      · exact ⟨_, _, rfl,
          (Environment.evolves_notify horderly.regular.indexed _).orderly horderly,
          hI.notify _ horderly henv⟩
      · exact ⟨_, _, rfl, horderly, henv⟩
  | define definition context =>
      obtain ⟨husage, hallowed, hwelcome⟩ := permitted_define hstep
      rw [Step.run_define]
      cases hcompile : definition.compile (context.getD env.context) with
      | error cause => exact ⟨_, _, rfl, horderly, henv⟩
      | ok compiled =>
          dsimp only
          have hafter := horderly.register (Definition.compile_disciplined husage hcompile)
          have hkept := hI.register horderly henv husage hallowed hcompile
            (hwelcome compiled hcompile)
          cases hregister : env.register compiled.name compiled.registration with
          | mk result after =>
              rw [hregister] at hafter hkept
              cases result with
              | ok _ => exact ⟨_, _, rfl, hafter, hkept⟩
              | error cause => exact ⟨_, _, rfl, hafter, hkept⟩
  | read name index => cases hquery
  | eval expr => cases hquery
  | _ => cases hstep

theorem run_kept {I : Environment Procedure → Prop} (hI : Kept allowed I) {step : Step}
    (hstep : step.permitted allowed env = true) (horderly : env.Orderly) (henv : I env) :
    ∃ answer after, env.run Procedure.dialogue (step.dialogue 0) = some (answer, after) ∧
      after.Orderly ∧ I after := by
  cases hquery : step.query env.context with
  | some d =>
      obtain ⟨footprint, hstores, hfollows⟩ := Step.follows_query hquery
      obtain ⟨result, after, hrun, hevolves⟩ := horderly.exists_run hfollows hstores
      refine ⟨.ofResult result, after, ?_, hevolves.orderly horderly,
        hI.run horderly henv hfollows hstores hrun⟩
      rw [Step.run_query _ _ hquery, hrun, Option.map_some]
  | none => exact run_keptAtOnce hI.toKeptAtOnce hstep hquery horderly henv

/-- A permitted step has a report, leaves an orderly environment, and keeps what everything
keeps. -/
theorem take_kept {I : Environment Procedure → Prop} (hI : Kept allowed I) {step : Step}
    (hstep : step.permitted allowed env = true) (horderly : env.Orderly) (henv : I env) :
    ∃ report after, take step env = some (report, after) ∧ after.Orderly ∧ I after := by
  have hclear : step.permitted allowed { env with journal := [] } = true := by
    cases step <;> exact hstep
  obtain ⟨answer, after, hrun, hafter⟩ :=
    run_kept hI hclear (horderly.clear []) (hI.clear [] horderly henv)
  exact ⟨_, after, take_of_run hrun, hafter⟩

end Session
end Memograph
