import Memograph.Proofs.Grounding
import Memograph.Proofs.Transparency

/-! Sessions against ledgers. A ledger takes the steps of a session too: assignments change what is
stored, definitions what is defined, and reads and top-level evaluations are answered from scratch.
Where the defined bodies assign nothing but locals and no stored variable is given its first
definition, a session answers as its ledger does, from its first step to its last. -/

namespace Memograph

/-! ### Steps of ledgers -/

namespace Ledger

variable {π α : Type}

/-- The ledger in which nothing has happened. -/
def initial (config : Config) (context : ContextPath) : Ledger π := ⟨config, context, ∅, ∅⟩

/-- Holds a dialogue at top level. Nothing is invalidated by an assignment. -/
def converse (meaning : Meaning π) : Dialogue π α → Ledger π → Option (α × Ledger π)
  | .done result, ledger => some (result, ledger)
  | .ask (.read name index) next, ledger =>
      (ledger.read meaning name index).bind fun answer => converse meaning (next answer) ledger
  | .ask (.assign name value) next, ledger => converse meaning (next []) (ledger.assign name value)
  | .ask _ _, _ => none

/-- Defines what a definition compiles to, in the active context if none is given. -/
def define (ledger : Ledger Procedure) (definition : Definition) (context : Option ContextPath) :
    Ledger Procedure :=
  match definition.compile (context.getD ledger.context) with
  | .error _ => ledger
  | .ok compiled => ledger.register compiled.name compiled.registration

/-- Takes a step, with an answer to a read and to a top-level evaluation. Invalidations are nothing
to a ledger. -/
def take : Step → Ledger Procedure → Option (Option Answer × Ledger Procedure)
  | .enter context, ledger => some (none, { ledger with context })
  | .assign name value, ledger => some (none, ledger.assign (name.resolve ledger.context) value)
  | .define definition context, ledger => some (none, ledger.define definition context)
  | .read name index, ledger =>
      (ledger.read Procedure.dialogue (name.resolve ledger.context)
        (index.map (Exchange.position 0))).map fun result => (some (.ofResult result), ledger)
  | .eval expr, ledger =>
      (ledger.converse Procedure.dialogue (expr.dialogue (.topLevel ledger.context) none)).map
        fun (result, after) => (some (.ofResult result), after)
  | .invalidate _, ledger => some (none, ledger)
  | .notify _, ledger => some (none, ledger)
  | _, _ => none

/-- Takes steps one after the other. -/
def takeAll : List Step → Ledger Procedure → Option (List (Option Answer) × Ledger Procedure)
  | [], ledger => some ([], ledger)
  | step :: steps, ledger =>
      (take step ledger).bind fun (answer, middle) =>
        (takeAll steps middle).map fun (answers, after) => (answer :: answers, after)

theorem take_query {step : Step} {ledger : Ledger Procedure} {d : Exchange (Except Error Value)}
    (h : step.query ledger.context = some d) :
    take step ledger = (ledger.converse Procedure.dialogue d).map fun outcome =>
      (some (.ofResult outcome.1), outcome.2) := by
  cases step with
  | read name index =>
      cases h
      rw [take, Dialogue.request, converse, Option.map_bind]
      exact Option.map_eq_bind
  | eval expr =>
      cases h
      rfl
  | _ => cases h

theorem Quiet.register {meaning : Meaning π} {ledger : Ledger π} (h : ledger.Quiet meaning)
    {name : QualifiedName} {registration : Registration π}
    (hnew : ∀ slot, (meaning registration.procedure slot).Reading registration.reads) :
    (ledger.register name registration).Quiet meaning := by
  unfold Ledger.register
  split
  · exact h
  · intro key other hkey
    dsimp only at hkey
    rw [Table.get?_insert] at hkey
    split at hkey
    · cases hkey
      exact hnew
    · exact h key other hkey

end Ledger

/-! ### Values outlast steps -/

namespace Environment

variable {π α : Type} {meaning : Meaning π} {env after : Environment π}

theorem Warranted.carry {names : QualifiedName → Prop} (h : env.Warranted meaning)
    (hquiet : env.ledger.Quiet meaning) (hcarries : env.ledger.Carries names after.ledger)
    (hback : ∀ name slot value, after.statusOf name slot = .valid value →
      names name ∧ env.statusOf name slot = .valid value) : after.Warranted meaning := by
  intro name slot value hvalid
  obtain ⟨hname, hbefore⟩ := hback name slot value hvalid
  obtain ⟨fuel, hgives⟩ := h name slot value hbefore
  exact ⟨fuel, hgives.carry hcarries hquiet hname⟩

theorem Warranted.notify (h : env.Warranted meaning) (name : QualifiedName) :
    (env.notify name).2.Warranted meaning := by
  intro key slot value hvalid
  rw [ledger_notify]
  exact h key slot value (env.valid_of_notify hvalid).2

theorem Warranted.assign (h : env.Warranted meaning) (hquiet : env.ledger.Quiet meaning)
    (hindexed : env.Indexed) (name : QualifiedName) (value : Value) :
    (env.assign name value).2.Warranted meaning := by
  have hcarries : env.ledger.Carries (fun key => ¬env.Reaches name key)
      (env.assign name value).2.ledger := by
    rw [ledger_assign]
    refine ⟨fun _ _ => rfl, fun key hkey _ => ?_, fun key registration hkey hdefined => ?_⟩
    · have hne : key ≠ name := by
        rintro rfl
        exact hkey .refl
      rw [Ledger.assign, Table.get?_insert, if_neg hne]
    · obtain ⟨dependency, hname, rfl⟩ := ledger_get?_eq_some hdefined
      intro read hread
      exact Or.inl fun hreaches => hkey (reaches_of_mem_reads hindexed hname hread hreaches)
  exact h.carry hquiet hcarries fun key slot other hvalid =>
    (env.store name value).valid_of_notify hvalid

theorem Installs.carries {name : QualifiedName} {registration : Registration π}
    (h : env.Installs after name registration) {names : QualifiedName → Prop} (hname : ¬names name)
    (hclosed : ∀ key dependency, names key → after.dependencies.get? key = some dependency →
      ∀ read ∈ dependency.reads, names read ∨ ¬env.Known read) :
    env.ledger.Carries names after.ledger := by
  have hget : ∀ key, names key → after.dependencies.get? key = env.dependencies.get? key := by
    intro key hkey
    have hne : key ≠ name := by
      rintro rfl
      exact hname hkey
    rw [h.get?, if_neg hne]
  refine ⟨fun key hkey => ?_, fun key _ _ => ?_, fun key other hkey hdefined read hread => ?_⟩
  · simp only [ledger, Table.get?_mapValues, hget key hkey]
  · simp only [ledger, h.stored]
  · obtain ⟨dependency, hdependency, rfl⟩ := ledger_get?_eq_some hdefined
    rw [← hget key hkey] at hdependency
    refine (hclosed key dependency hkey hdependency read hread).imp_right fun hunknown => ?_
    exact (not_known_iff.mp hunknown).imp_left ledger_get?_eq_none_iff.mpr

theorem Warranted.register (h : env.Warranted meaning) (hquiet : env.ledger.Quiet meaning)
    (hindexed : env.Indexed) {name : QualifiedName} (registration : Registration π)
    (hfirst : env.dependencies.get? name = none → env.stored.get? name = none) :
    (env.register name registration).2.Warranted meaning := by
  rcases register_cases env name registration with
    ⟨hname, hregister⟩ | ⟨old, -, -, hregister⟩ | ⟨old, hname, -, hregister⟩
  · have hinstalls := installs_enroll env name registration
    have hunknown : ¬env.Known name := not_known_iff.mpr ⟨hname, hfirst hname⟩
    have hcarries : env.ledger.Carries (fun key => key ≠ name)
        (env.enroll name registration).ledger := by
      refine hinstalls.carries (fun hne => hne rfl) fun _ _ _ _ read _ => ?_
      by_cases hread : read = name
      · exact Or.inr (hread ▸ hunknown)
      · exact Or.inl hread
    rw [hregister]
    exact h.carry hquiet hcarries fun _ _ _ hvalid => hinstalls.of_statusOf_eq_valid hvalid
  · rw [hregister]
    exact h
  · have hinstalls := installs_supersede env name old registration
    have hsuperseded : (env.supersede name old registration).Indexed :=
      indexed_supersede hindexed hname
    have hcarries : env.ledger.Carries
        (fun key => ¬(env.supersede name old registration).Reaches name key)
        ((env.supersede name old registration).notify name).2.ledger := by
      rw [ledger_notify]
      refine hinstalls.carries (fun hapart => hapart .refl) ?_
      intro key dependency hkey hdependency read hread
      left
      exact fun hreaches => hkey (reaches_of_mem_reads hsuperseded hdependency hread hreaches)
    rw [hregister]
    refine h.carry hquiet hcarries fun key slot value hvalid => ?_
    obtain ⟨hapart, hbefore⟩ := valid_of_notify _ hvalid
    exact ⟨hapart, (hinstalls.of_statusOf_eq_valid hbefore).2⟩

/-! ### Runs at top level -/

theorem Transparent.assign (h : env.Transparent meaning) (name : QualifiedName) (value : Value) :
    (env.assign name value).2.Transparent meaning where
  regular := (sameDependencies_assign env name value).regular h.regular
  quiet := (env.ledger_assign name value).symm ▸ h.quiet
  balanced := (evolves_assign h.regular.indexed name value).balanced h.balanced
  warranted := h.warranted.assign h.quiet h.regular.indexed name value

/-- A dialogue at top level has the result that it has from scratch, and leaves behind it what it
leaves behind it from scratch. -/
theorem Transparent.converse_ledger {footprint : Footprint}
    {post : List QualifiedName → α → Prop} {asked : List QualifiedName}
    {d : Dialogue π (Except Error α)} (hd : d.Follows footprint post asked)
    (hstores : footprint.stores = []) (h : env.Transparent meaning) (hidle : env.underway = [])
    {depth : Nat} (hdepth : env.ledger.limit = depth) :
    ∃ result after, Environment.converse (respond (nested meaning depth) meaning) d env =
        some (result, after) ∧
      env.ledger.converse meaning d = some (result, after.ledger) ∧ after.Transparent meaning := by
  induction hd generalizing env with
  | failed cause => exact ⟨_, env, rfl, rfl, h⟩
  | done hpost => exact ⟨_, env, rfl, rfl, h⟩
  | @read asked name index next hname hfailed hnext ih =>
      obtain ⟨answer, hanswer⟩ := Ledger.exists_read h.quiet name index
      have hawaits := awaits_of_idle hidle meaning (.request (.read name index))
      have hscratch : env.ledger.readWithin meaning depth env.underway name index =
          some answer := by
        rw [hidle, ← hdepth]
        exact hanswer
      obtain ⟨middle, hreply, hstep, hledger, hwarranted⟩ :=
        h.read depth name index hawaits hscratch
      have hmiddle := h.evolves hstep hledger hwarranted
      rw [converse_read hreply, Ledger.converse, hanswer, Option.bind_some]
      cases answer with
      | error cause =>
          rw [hfailed]
          exact ⟨_, middle, rfl, by rw [hledger]; rfl, hmiddle⟩
      | ok value =>
          obtain ⟨result, after, hrun, hlast, hafter⟩ :=
            ih value hmiddle (hstep.underway.trans hidle) (by rw [hledger, hdepth])
          exact ⟨result, after, hrun, hledger ▸ hlast, hafter⟩
  | @assign asked name value rest hname hrest ih =>
      have hstep := evolves_assign h.regular.indexed name value
      have hlimit : (env.assign name value).2.ledger.limit = depth := by
        rw [ledger_assign]
        exact hdepth
      obtain ⟨result, after, hrun, hlast, hafter⟩ :=
        ih (h.assign name value) (hstep.underway.trans hidle) hlimit
      rw [ledger_assign] at hlast
      exact ⟨result, after, hrun, hlast, hafter⟩
  | store hname hrest ih =>
      rw [hstores] at hname
      cases hname

end Environment

/-! ### Definitions that assign only locals -/

namespace Definition

/-- Whether the body of a definition assigns nothing but locals: no name with a dot, and not the
defined name. -/
def localOnly (definition : Definition) : Bool :=
  definition.body.targets.all fun target => !isDotted target && target != definition.written

/-- No target of such a definition stands for a variable. -/
theorem targets_of_localOnly {definition : Definition} {context : ContextPath}
    {compiled : Compiled} (husage : definition.usage = Usage.ofExpr definition.body)
    (hlocal : definition.localOnly = true) (h : definition.compile context = .ok compiled) :
    ∀ target ∈ compiled.body.targets, compiled.resolution.global? target = none := by
  rw [compile_body h]
  intro target htarget
  have hnames := List.all_eq_true.mp hlocal target htarget
  simp only [Bool.and_eq_true, Bool.not_eq_true', bne_iff_ne, ne_eq] at hnames
  have hmem : target ∈ definition.locals := by
    rw [mem_locals_iff, husage, (Usage.records_ofExpr definition.body).localAssignment,
      List.mem_eraseDups, List.mem_filter]
    exact ⟨⟨htarget, by simp [hnames.1]⟩, hnames.2⟩
  rw [compile_global? h, if_pos (Or.inr hmem)]

/-- What such a definition registers only reads. -/
theorem reading_of_localOnly {definition : Definition} {context : ContextPath}
    {compiled : Compiled} (husage : definition.usage = Usage.ofExpr definition.body)
    (hlocal : definition.localOnly = true) (h : definition.compile context = .ok compiled)
    (slot : Option Int64) :
    (Procedure.dialogue compiled.registration.procedure slot).Reading
      compiled.registration.reads := by
  have htargets : compiled.body.targets.filterMap compiled.resolution.global? = [] :=
    List.filterMap_eq_nil_iff.mpr (targets_of_localOnly husage hlocal h)
  have hfollows := Expr.follows_dialogue (π := Procedure) compiled.resolution compiled.body slot
  refine (hfollows.reading ?_ ?_).subset fun name => (mem_compile_reads_iff husage h name).mpr
  · simp only [Footprint.ofExpr, Footprint.ofNames, htargets, List.filter_nil]
  · simp only [Footprint.ofExpr, Footprint.ofNames, htargets, List.filter_nil]

end Definition

/-! ### Sessions -/

namespace Environment

variable {env after : Environment Procedure}

/-- Whether an environment is as sessions leave it between two steps that define only what assigns
locals. -/
structure Settled (env : Environment Procedure) : Prop where
  orderly : env.Orderly
  quiet : env.ledger.Quiet Procedure.dialogue
  warranted : env.Warranted Procedure.dialogue

theorem Settled.transparent (h : env.Settled) : env.Transparent Procedure.dialogue :=
  ⟨h.orderly.regular, h.quiet, h.orderly.idle.balanced, h.warranted⟩

theorem settled_initial (config : Config) (context : ContextPath) :
    (initial config context : Environment Procedure).Settled :=
  ⟨orderly_initial config context, nofun, nofun⟩

/-- A run without stores has the result that it has from scratch. -/
theorem Settled.run_ledger (h : env.Settled) {d : Exchange (Except Error Value)}
    {footprint : Footprint} {result : Except Error Value}
    (hd : d.Follows footprint (fun _ _ => True) []) (hstores : footprint.stores = [])
    (hrun : env.run Procedure.dialogue d = some (result, after)) :
    env.ledger.converse Procedure.dialogue d = some (result, after.ledger) ∧
      after.ledger.Quiet Procedure.dialogue ∧ after.Warranted Procedure.dialogue := by
  have hidle := h.orderly.idle.underway
  obtain ⟨result', after', hconverse, hscratch, hafter⟩ :=
    h.transparent.converse_ledger hd hstores hidle env.ledger_limit
  rw [Environment.run, runWithin_eq_converse, hconverse] at hrun
  cases hrun
  exact ⟨hscratch, hafter.quiet, hafter.warranted⟩

theorem Warranted.enter {π : Type} {meaning : Meaning π} {env : Environment π}
    (h : env.Warranted meaning) (hquiet : env.ledger.Quiet meaning) (context : ContextPath) :
    { env with context }.Warranted meaning := by
  have hcarries : env.ledger.Carries (fun _ => True) { env with context }.ledger :=
    ⟨fun _ _ => rfl, fun _ _ _ => rfl, fun _ _ _ _ _ _ => Or.inl trivial⟩
  exact h.carry hquiet hcarries fun _ _ _ hvalid => ⟨trivial, hvalid⟩

/-- Sessions of definitions that assign only locals keep every value what it is from scratch. -/
theorem kept_warranted : Kept Definition.localOnly fun env =>
    env.ledger.Quiet Procedure.dialogue ∧ env.Warranted Procedure.dialogue where
  enter := fun context _ h => ⟨h.1, h.2.enter h.1 context⟩
  clear := fun _ _ h => h
  assign := fun name value horderly h => by
    rw [ledger_assign]
    exact ⟨h.1, h.2.assign h.1 horderly.regular.indexed name value⟩
  notify := fun name _ h => by
    rw [ledger_notify]
    exact ⟨h.1, h.2.notify name⟩
  register := fun horderly h husage hlocal hcompile hfirst => by
    rw [ledger_register]
    exact ⟨h.1.register (Definition.reading_of_localOnly husage hlocal hcompile),
      h.2.register h.1 horderly.regular.indexed _ hfirst⟩
  run := fun horderly h hd hstores hrun =>
    (Settled.run_ledger ⟨horderly, h.1, h.2⟩ hd hstores hrun).2

end Environment

namespace Session

open Environment

/-- A permitted step answers as it does from scratch. -/
theorem run_dialogue_ledger {env after : Environment Procedure} {step : Step} {answer : Answer}
    (hstep : step.permitted Definition.localOnly env = true) (henv : env.Settled)
    (hrun : env.run Procedure.dialogue (step.dialogue 0) = some (answer, after)) :
    ∃ scratch, Ledger.take step env.ledger = some (scratch, after.ledger) ∧
      ∀ expected ∈ scratch, answer = expected := by
  cases hquery : step.query env.context with
  | some d =>
      obtain ⟨footprint, hstores, hfollows⟩ := Step.follows_query hquery
      rw [Step.run_query _ _ hquery, Option.map_eq_some_iff] at hrun
      obtain ⟨⟨result, middle⟩, hresult, heq⟩ := hrun
      cases heq
      have hscratch := (henv.run_ledger hfollows hstores hresult).1
      refine ⟨some (.ofResult result), ?_, fun _ hexpected => Option.mem_some_iff.mp hexpected⟩
      rw [Ledger.take_query hquery, hscratch, Option.map_some]
  | none =>
      cases step with
      | enter context =>
          rw [Step.run_enter] at hrun
          cases hrun
          exact ⟨none, rfl, nofun⟩
      | assign name value =>
          rw [Step.run_assign] at hrun
          cases hrun
          exact ⟨none, by rw [ledger_assign]; rfl, nofun⟩
      | notify name =>
          rw [Step.run_notify] at hrun
          cases hrun
          exact ⟨none, by rw [ledger_notify]; rfl, nofun⟩
      | invalidate name =>
          rw [Step.run_invalidate] at hrun
          split at hrun
          · cases hrun
            exact ⟨none, by rw [ledger_notify]; rfl, nofun⟩
          · cases hrun
            exact ⟨none, rfl, nofun⟩
      | define definition context =>
          refine ⟨none, ?_, nofun⟩
          rw [Step.run_define] at hrun
          have hcontext : env.ledger.context = env.context := rfl
          rw [Ledger.take, Ledger.define, hcontext]
          cases hcompile : definition.compile (context.getD env.context) with
          | error cause =>
              rw [hcompile] at hrun
              cases hrun
              rfl
          | ok compiled =>
              rw [hcompile] at hrun
              dsimp only at hrun ⊢
              rw [← ledger_register]
              cases hregister : env.register compiled.name compiled.registration with
              | mk result registered =>
                  rw [hregister] at hrun
                  cases result <;> cases hrun <;> rfl
      | read name index => cases hquery
      | eval expr => cases hquery
      | _ => cases hstep

/-- A permitted step has a report, with the answer that the step has from scratch. -/
theorem take_ledger {env : Environment Procedure} {step : Step}
    (hstep : step.permitted Definition.localOnly env = true) (henv : env.Settled) :
    ∃ report after scratch, take step env = some (report, after) ∧ after.Settled ∧
      Ledger.take step env.ledger = some (scratch, after.ledger) ∧
      ∀ expected ∈ scratch, report.answer = expected := by
  obtain ⟨report, after, htake, hafter, hquiet, hwarranted⟩ :=
    take_kept kept_warranted hstep henv.orderly ⟨henv.quiet, henv.warranted⟩
  have hclear : step.permitted Definition.localOnly { env with journal := [] } = true := by
    cases step <;> exact hstep
  have hsettled : { env with journal := [] }.Settled :=
    ⟨henv.orderly.clear [], henv.quiet, henv.warranted⟩
  have hrun := htake
  rw [take, Option.map_eq_some_iff] at hrun
  obtain ⟨⟨answer, last⟩, hrun, heq⟩ := hrun
  cases heq
  obtain ⟨scratch, hscratch, hanswer⟩ := run_dialogue_ledger hclear hsettled hrun
  exact ⟨_, _, scratch, htake, ⟨hafter, hquiet, hwarranted⟩, hscratch, hanswer⟩

/-- What a read or a top-level evaluation answers, and what it leaves stored and defined, depends on
what is stored and defined and not on what else happened before. -/
theorem take_eq_of_ledger_eq {env other : Environment Procedure} {step : Step}
    (hstep : (step.query (π := Procedure) env.context).isSome = true) (henv : env.Settled)
    (hother : other.Settled) (hledger : env.ledger = other.ledger) :
    ∃ report after report' after', take step env = some (report, after) ∧
      take step other = some (report', after') ∧ report.answer = report'.answer ∧
      after.ledger = after'.ledger := by
  obtain ⟨d, hquery⟩ := Option.isSome_iff_exists.mp hstep
  have hpermitted : ∀ env, step.permitted Definition.localOnly env = true := by
    intro env
    cases step with
    | read name index => rfl
    | eval expr => rfl
    | _ => cases hquery
  obtain ⟨report, after, scratch, htake, -, hscratch, hanswer⟩ := take_ledger (hpermitted env) henv
  obtain ⟨report', after', scratch', htake', -, hscratch', hanswer'⟩ :=
    take_ledger (hpermitted other) hother
  rw [← hledger, hscratch, Option.some.injEq, Prod.mk.injEq] at hscratch'
  obtain ⟨rfl, hafter⟩ := hscratch'
  rw [Ledger.take_query hquery, Option.map_eq_some_iff] at hscratch
  obtain ⟨⟨result, last⟩, -, heq⟩ := hscratch
  cases heq
  exact ⟨report, after, report', after', htake, htake', (hanswer _ rfl).trans (hanswer' _ rfl).symm,
    hafter⟩

theorem takeAll_ledger {env : Environment Procedure} {steps : List Step}
    (hsteps : permits Definition.localOnly steps env = true) (henv : env.Settled) :
    ∃ reports after answers, takeAll steps env = some (reports, after) ∧
      Ledger.takeAll steps env.ledger = some (answers, after.ledger) ∧
      List.Forall₂ (fun report answer => ∀ expected ∈ answer, report.answer = expected)
        reports answers := by
  induction steps generalizing env with
  | nil => exact ⟨[], env, [], rfl, rfl, .nil⟩
  | cons step steps ih =>
      rw [permits, Bool.and_eq_true] at hsteps
      obtain ⟨report, middle, scratch, htake, hmiddle, hfirst, hanswer⟩ :=
        take_ledger hsteps.1 henv
      have hrest := hsteps.2
      rw [htake, Option.all_some] at hrest
      obtain ⟨reports, after, answers, hall, hlast, hagree⟩ := ih hrest hmiddle
      refine ⟨report :: reports, after, scratch :: answers, takeAll_cons htake hall, ?_,
        .cons hanswer hagree⟩
      rw [Ledger.takeAll, hfirst, Option.bind_some]
      dsimp only
      rw [hlast]
      rfl

/-- A session answers every read and every top-level evaluation as its ledger does from scratch,
where definitions assign only locals and none is the first of a stored variable. -/
theorem run_refines_ledger {session : Session}
    (h : permits Definition.localOnly session.steps (.initial session.config session.context) =
      true) :
    ∃ reports env answers, session.run = some (reports, env) ∧
      Ledger.takeAll session.steps (.initial session.config session.context) =
        some (answers, env.ledger) ∧
      List.Forall₂ (fun report answer => ∀ expected ∈ answer, report.answer = expected)
        reports answers :=
  takeAll_ledger h (settled_initial session.config session.context)

/-- An itemwise variable whose body has a local of its own, under a variable that is read before and
after what it reads changes, and two variables that are a cycle until one of them is defined
again. -/
def recomputing : Session where
  config := ⟨.replace⟩
  context := .root
  steps :=
    [.assign (.written "y") (.int 2),
      .define (.ofBody "v" (some "i")
        (.sequence [.assign "z" (.name "y"), .binary .multiply (.name "z") (.name "i")]) "") none,
      .define (.ofBody "x" none
        (.binary .add (.item (.name "v") (.constant (.int 3))) (.name "y")) "") none,
      .read (.written "x") none, .assign (.written "y") (.int 5), .eval (.name "x"),
      .read (.written "v") (some (.position 3)), .invalidate (.written "v"),
      .define (.ofBody "a" none (.binary .add (.name "x") (.name "b")) "") none,
      .define (.ofBody "b" none (.name "a") "") none, .read (.written "a") none,
      .define (.ofBody "b" none (.constant (.int 1)) "") none, .read (.written "a") none]

theorem run_refines_ledger_recomputing :
    ∃ reports env answers, recomputing.run = some (reports, env) ∧
      Ledger.takeAll recomputing.steps (.initial recomputing.config recomputing.context) =
        some (answers, env.ledger) ∧
      List.Forall₂ (fun report answer => ∀ expected ∈ answer, report.answer = expected)
        reports answers :=
  run_refines_ledger (by decide +kernel)

end Session
end Memograph
