import Memograph.Proofs.Commuting
import Memograph.Proofs.Parallel
import Memograph.Proofs.Runs
import Memograph.Proofs.Scoping
import Memograph.Proofs.Spellings

/-! Evaluating and defining. An expression that assigns nothing comes to the same, be it evaluated
at top level or be it the body of a new variable that is read. Both times the same requests are
asked. The second time they are asked inside of a recompute of the new variable; but nothing that
the expression reads leads back to it, so that recompute is seen neither in values nor in the
chains of cycles. -/

open Relation

namespace Memograph

variable {π α : Type}

/-! ### Dialogues that read some names -/

/-- Whether a request is a read, and one of a name of some kind. -/
def Request.ReadsIn (W : QualifiedName → Prop) : Request π → Prop
  | .read name _ => W name
  | _ => False

theorem Dialogue.Reading.confined {names : List QualifiedName} {W : QualifiedName → Prop}
    {d : Dialogue π (Except Error α)} (h : d.Reading names) (hW : ∀ name ∈ names, W name) :
    d.Confined (Request.ReadsIn W) := by
  induction h with
  | done result => trivial
  | read hname hfailed hnext ih =>
      refine ⟨hW _ hname, fun reply => ?_⟩
      cases reply with
      | error cause =>
          rw [hfailed]
          trivial
      | ok value => exact ih value

namespace Environment

/-! ### Inside of one more recompute -/

/-- Whether the second environment is the first one inside of one more recompute, as far as it goes
for names of some kind. Dependencies of such names read no others. -/
structure Enclosed (meaning : Meaning π) (W : QualifiedName → Prop) (frame : Frame)
    (env there : Environment π) : Prop where
  stored : there.stored = env.stored
  stack : there.stack = env.stack ++ [frame]
  dependencies : ∀ name, W name → there.dependencies.get? name = env.dependencies.get? name
  closed : env.AllRegistered fun name registration => W name → ∀ slot,
    (meaning registration.procedure slot).Confined (Request.ReadsIn W)

variable {meaning : Meaning π} {W : QualifiedName → Prop} {frame : Frame}
  {env there middle after : Environment π} {name : QualifiedName} {dependency : Dependency π}

/-- The outermost recompute does not show in the chain of a name that is not its own. -/
theorem chain_of_stack_append (h : there.stack = env.stack ++ [frame]) (hname : frame.name ≠ name)
    (index : Option Int64) : there.chain name index = env.chain name index := by
  unfold chain
  generalize hapart : (fun frame : Frame => !(frame.name == name && frame.index == index)) = apart
  have houter : apart frame = true := by simp [← hapart, hname]
  have hle := (List.takeWhile_prefix (l := env.stack) apart).length_le
  dsimp only
  rw [h, List.takeWhile_append]
  by_cases hall : (env.stack.takeWhile apart).length = env.stack.length
  · -- No recompute of the slot is running, and neither is the outermost one of it.
    rw [if_pos hall, List.takeWhile_cons_of_pos houter, List.takeWhile_nil,
      if_neg (Nat.lt_irrefl _), if_neg hall.not_lt]
  · have hlt := Nat.lt_of_le_of_ne hle hall
    have hlt' := Nat.lt_add_right 1 hlt
    rw [if_neg hall, List.length_append, List.length_singleton, if_pos hlt, if_pos hlt']

namespace Enclosed

theorem start (h : env.Enclosed meaning W frame there)
    (hname : env.dependencies.get? name = some dependency) (slot : Option Int64) :
    (env.start name dependency slot).Enclosed meaning W frame
      (there.start name dependency slot) where
  stored := h.stored
  stack := congrArg (List.cons _) h.stack
  dependencies := fun key hkey => by rw [get?_start, get?_start, h.dependencies key hkey]
  closed := (sameDependencies_start hname slot).allRegistered h.closed

theorem finish (h : env.Enclosed meaning W frame there) (hname : W name) (hstack : env.stack ≠ [])
    (serial began : Nat) (slot : Option Int64) (result : Except Error Value) :
    (env.finish name serial began slot result).Enclosed meaning W frame
      (there.finish name serial began slot result) := by
  have htail : there.stack.tail = env.stack.tail ++ [frame] := by
    rw [h.stack, List.tail_append_of_ne_nil hstack]
  have hthere := h.dependencies name hname
  have hstored := h.stored
  by_cases hheld : ∃ dependency, env.dependencies.get? name = some dependency ∧
      dependency.serial = serial
  · obtain ⟨dependency, hget, rfl⟩ := hheld
    rw [hget] at hthere
    constructor
    case stored => rwa [finish_eq hget, finish_eq hthere]
    case stack => rwa [stack_finish, stack_finish]
    case dependencies =>
      intro key hkey
      rw [get?_finish hget, get?_finish hthere, h.dependencies key hkey]
    case closed => exact (sameDependencies_finish hget slot began result).allRegistered h.closed
  · -- The dependency has lost its name meanwhile.
    unfold Environment.finish
    dsimp only
    rw [hthere]
    cases hget : env.dependencies.get? name with
    | none => exact ⟨h.stored, htail, h.dependencies, h.closed⟩
    | some dependency =>
        have hserial : dependency.serial ≠ serial := fun heq => hheld ⟨dependency, hget, heq⟩
        dsimp only
        rw [if_neg hserial, if_neg hserial]
        exact ⟨h.stored, htail, h.dependencies, h.closed⟩

end Enclosed

/-! ### Runs inside of one more recompute -/

section Enclosing

variable {depth : Nat} (hframe : ¬W frame.name)
  (hrun : ∀ {env there after : Environment π} {d : Dialogue π (Except Error Value)}
    {result : Except Error Value}, d.Confined (Request.ReadsIn W) →
      env.Enclosed meaning W frame there → nested meaning depth d env = some (result, after) →
        ∃ after', nested meaning depth d there = some (result, after') ∧
          after.Enclosed meaning W frame after')

include hframe hrun

theorem Enclosed.compute (h : env.Enclosed meaning W frame there) (hname : W name)
    (hget : env.dependencies.get? name = some dependency) {slot : Option Int64}
    {result : Except Error Value}
    (hcompute : compute (nested meaning depth) meaning name dependency slot env =
      some (result, after)) :
    ∃ after', compute (nested meaning depth) meaning name dependency slot there =
      some (result, after') ∧ after.Enclosed meaning W frame after' := by
  rcases compute_eq_some hcompute with
    ⟨value, hstatus, rfl, rfl⟩ | ⟨hstatus, rfl, rfl⟩ | ⟨hstatus, middle, hmiddle, rfl⟩
  · rw [Environment.compute, hstatus]
    exact ⟨there, rfl, h⟩
  · have hapart : frame.name ≠ name := fun heq => hframe (heq ▸ hname)
    rw [Environment.compute, hstatus, chain_of_stack_append h.stack hapart]
    exact ⟨there, rfl, h⟩
  · obtain ⟨middle', hmiddle', hinner⟩ :=
      hrun (h.closed name dependency hget hname slot) (h.start hget slot) hmiddle
    have hstack : middle.stack ≠ [] := by
      rw [(traces_innerHistory meaning depth _ _).stack _ _ hmiddle]
      exact List.cons_ne_nil _ _
    exact ⟨_, compute_of_uninitialized hstatus hmiddle',
      hinner.finish hname hstack _ _ slot result⟩

theorem Enclosed.read (h : env.Enclosed meaning W frame there) (hname : W name)
    {index : Option Int64} {result : Except Error Value}
    (hread : env.read (nested meaning depth) meaning name index = some (result, after)) :
    ∃ after', there.read (nested meaning depth) meaning name index = some (result, after') ∧
      after.Enclosed meaning W frame after' := by
  have hthere := h.dependencies name hname
  rcases read_eq_some hread with ⟨hget, rfl, rfl⟩ | ⟨dependency, hget, hevaluated⟩
  · have hsame : there.readStored name index = after.readStored name index := by
      unfold readStored
      rw [h.stored]
    rw [hget] at hthere
    rw [read_of_unregistered hthere, hsame]
    exact ⟨there, rfl, h⟩
  · rw [hget] at hthere
    rcases hevaluated with ⟨hslot, rfl, rfl⟩ | ⟨slot, whole, hslot, hcompute, rfl⟩
    · rw [read_of_unindexed hthere hslot]
      exact ⟨there, rfl, h⟩
    · obtain ⟨after', hcompute', hafter⟩ := h.compute hframe hrun hname hget hcompute
      rw [read_of_slot? hthere hslot, hcompute']
      exact ⟨after', rfl, hafter⟩

theorem Enclosed.converse (h : env.Enclosed meaning W frame there) {d : Dialogue π α}
    (hd : d.Confined (Request.ReadsIn W)) {result : α}
    (hheld : converse (respond (nested meaning depth) meaning) d env = some (result, after)) :
    ∃ after', converse (respond (nested meaning depth) meaning) d there = some (result, after') ∧
      after.Enclosed meaning W frame after' := by
  induction d generalizing env there with
  | done other =>
      cases hheld
      exact ⟨there, rfl, h⟩
  | ask request next ih =>
      obtain ⟨reply, middle, hreply, hlater⟩ := converse_ask_eq_some hheld
      cases request with
      | read name index =>
          obtain ⟨middle', hreply', hmiddle⟩ := h.read hframe hrun hd.1 hreply
          rw [converse_read hreply']
          exact ih reply hmiddle (hd.2 reply) hlater
      | _ => cases hd.1

end Enclosing

theorem Enclosed.nested (h : env.Enclosed meaning W frame there) (hframe : ¬W frame.name)
    (depth : Nat) {d : Dialogue π (Except Error Value)} (hd : d.Confined (Request.ReadsIn W))
    {result : Except Error Value} (hrun : nested meaning depth d env = some (result, after)) :
    ∃ after', nested meaning depth d there = some (result, after') ∧
      after.Enclosed meaning W frame after' := by
  induction depth generalizing env there after d result with
  | zero => cases hrun
  | succ depth ih =>
      rw [Environment.nested, runWithin_eq_converse] at hrun ⊢
      exact h.converse hframe (fun hd h hrun => ih h hd hrun) hd hrun

/-- A run that reads names of the kind has the same result inside of a recompute of another
name. -/
theorem Enclosed.runWithin (h : env.Enclosed meaning W frame there) (hframe : ¬W frame.name)
    {depth : Nat} {d : Dialogue π α} (hd : d.Confined (Request.ReadsIn W)) {result : α}
    (hrun : runWithin meaning depth d env = some (result, after)) :
    ∃ after', runWithin meaning depth d there = some (result, after') ∧
      after.Enclosed meaning W frame after' := by
  rw [runWithin_eq_converse] at hrun ⊢
  exact h.converse hframe (fun hd h hrun => h.nested hframe depth hd hrun) hd hrun

/-! ### New variables -/

theorem depthLimit_lt_enroll (h : env.dependencies.get? name = none)
    (registration : Registration π) :
    env.depthLimit < (env.enroll name registration).depthLimit := by
  have hsize : (env.enroll name registration).dependencies.size = env.dependencies.size + 1 := by
    rw [← Table.length_keys, enroll, Table.keys_insert,
      if_neg ((Table.get?_eq_none_iff _ _).mp h), List.length_append, Table.length_keys]
    rfl
  rw [depthLimit, depthLimit, hsize]
  exact Nat.mul_lt_mul_of_pos_left (Nat.lt_succ_self _) (by decide)

/-- What reads nothing that leads to a new variable has the same result when it is run and when it
is the procedure of that variable, which is then read. -/
theorem read_enroll_of_run (hidle : env.stack = [])
    (hreading : env.AllRegistered fun _ registration => ∀ slot,
      (meaning registration.procedure slot).Reading registration.reads)
    (hname : env.dependencies.get? name = none) {registration : Registration π}
    (hshape : registration.shape = .scalar)
    (hd : (meaning registration.procedure none).Confined
      (Request.ReadsIn fun read => ¬ReflTransGen env.Reads read name))
    {result : Except Error Value}
    (hrun : env.run meaning (meaning registration.procedure none) = some (result, after)) :
    ∃ after', (env.enroll name registration).run meaning (.request (.read name none)) =
      some (result, after') := by
  have hinstalls := installs_enroll env name registration
  have hget := hinstalls.get? name
  rw [if_pos rfl] at hget
  have henclosed : env.Enclosed meaning (fun read => ¬ReflTransGen env.Reads read name)
      ⟨env.registrations, name, none⟩ ((env.enroll name registration).start name
        (Dependency.ofRegistration env.registrations registration) none) := by
    constructor
    case stored => rfl
    case stack =>
      rw [hidle]
      exact congrArg (List.cons _) hidle
    case dependencies =>
      intro read hapart
      have hne : read ≠ name := by
        rintro rfl
        exact hapart .refl
      rw [get?_start, if_neg hne, hinstalls.get?, if_neg hne]
    case closed =>
      intro reader dependency hreader hapart slot
      exact (hreading reader dependency hreader slot).confined fun read hread hpath =>
        hapart (.head ⟨dependency, hreader, hread⟩ hpath)
  obtain ⟨after', hrun', -⟩ :=
    henclosed.runWithin (not_not.mpr .refl) hd hrun
  have hdeep := nested_of_runWithin (depthLimit_lt_enroll hname registration) hrun'
  have hslot : (Dependency.ofRegistration env.registrations registration).shape.slot? none =
      some none := by
    change registration.shape.slot? none = some none
    rw [hshape]
    rfl
  have hpart : result.bind (registration.shape.part none) = result := by
    rw [hshape]
    cases result <;> rfl
  refine ⟨after'.finish name env.registrations 0 none result, run_read ?_⟩
  rw [read_of_slot? hget hslot, compute_of_uninitialized rfl hdeep, Option.map_some]
  exact congrArg (fun whole => some (whole, _)) hpart

end Environment

/-! ### Expressions -/

theorem Resolution.global?_topLevel (context : ContextPath) (written : String) :
    (topLevel context).global? written = some (qualify context written) := by
  simp [global?, resolve, topLevel]

/-- An expression that assigns nothing only reads, and only variables of the context. -/
theorem Expr.reading_topLevel {expr : Expr} (htargets : expr.targets = []) (context : ContextPath) :
    (expr.dialogue (.topLevel context) none : Dialogue π (Except Error Value)).Reading
      (expr.names.map (qualify context)) := by
  have hfollows := expr.follows_dialogue (π := π) (.topLevel context) none
  have hnames : expr.names.filterMap (Resolution.topLevel context).global? =
      expr.names.map (qualify context) := by
    rw [← List.filterMap_eq_map]
    exact List.filterMap_congr fun written _ => Resolution.global?_topLevel context written
  rw [← hnames]
  refine hfollows.reading ?_ ?_
  · simp [Footprint.ofExpr, Footprint.ofNames, htargets]
  · simp [Footprint.ofExpr, Footprint.ofNames, htargets]

namespace Definition

variable {written source : String} {expr : Expr} {context : ContextPath} {compiled : Compiled}

theorem wellScoped_ofBody (htargets : expr.targets = [])
    (hnames : ∀ name ∈ expr.names, isValidName name = true)
    (hwritten : isValidName written = true) (source : String) :
    (ofBody written none expr source).WellScoped := by
  refine ⟨hwritten, nofun, fun name hmentions => ?_⟩
  rcases hmentions with hname | htarget
  · exact hnames name hname
  · rw [ofBody, htargets] at htarget
    cases htarget

/-- The names of a body without assignments and indexer are bound as they are at top level. -/
theorem global?_ofBody (htargets : expr.targets = [])
    (h : (ofBody written none expr source).compile context = .ok compiled) (name : String) :
    compiled.resolution.global? name = (Resolution.topLevel context).global? name := by
  have hlocal : name ∉ (ofBody written none expr source).locals := by
    rw [mem_locals_ofExpr_iff rfl, ofBody, htargets]
    exact fun hmem => List.not_mem_nil hmem.1
  rw [compile_global? h, Resolution.global?_topLevel, if_neg]
  rintro (hindexer | hmem)
  · cases hindexer
  · exact hlocal hmem

/-- An expression that assigns nothing is a definition of any variable, whose body does what the
expression does at top level. -/
theorem compile_ofBody (htargets : expr.targets = [])
    (hnames : ∀ name ∈ expr.names, isValidName name = true) (hwritten : isValidName written = true)
    (source : String) (context : ContextPath) :
    ∃ compiled, (ofBody written none expr source).compile context = .ok compiled ∧
      compiled.name = qualify context written ∧ compiled.registration.shape = .scalar ∧
      Procedure.dialogue compiled.registration.procedure none =
        expr.dialogue (.topLevel context) none := by
  obtain ⟨compiled, h⟩ :=
    exists_compile rfl (wellScoped_ofBody htargets hnames hwritten source) context
  have hglobal := global?_ofBody htargets h
  refine ⟨compiled, h, compile_name h, ?_, ?_⟩
  · have hindexer : compiled.resolution.indexer = none := by
      obtain ⟨-, -, -, globals, -, rfl⟩ := compile_ok h
      rfl
    rw [Compiled.registration, Compiled.isItemwise, hindexer]
    rfl
  · change compiled.body.dialogue compiled.resolution none = _
    rw [compile_body h]
    -- Both bind every name as a variable, so no local is ever read.
    have halike : Expr.BoundAlike (fun _ => False) compiled.resolution (.topLevel context)
        expr.names expr.targets := by
      refine ⟨fun name _ => hglobal name, fun name _ hnone => ?_, fun name _ => hglobal name, ?_⟩
      · rw [hglobal, Resolution.global?_topLevel] at hnone
        cases hnone
      · rw [htargets]
        exact fun name hname => absurd hname List.not_mem_nil
    exact Expr.run_evaluate_congr halike fun _ hkept => hkept.elim

end Definition

/-! ### Sessions -/

namespace Session

open Environment

variable {env after : Environment Procedure}

theorem take_of_query {step : Step} {d : Exchange (Except Error Value)}
    {result : Except Error Value} (hquery : step.query env.context = some d)
    (hrun : env.cleared.run Procedure.dialogue d = some (result, after)) :
    take step env = some (⟨.ofResult result, after.journal, after.items⟩, after) := by
  have hstep := Step.run_query Procedure.dialogue env.cleared hquery
  rw [hrun, Option.map_some] at hstep
  exact take_of_run hstep

theorem take_of_compile {definition : Definition} {compiled : Compiled}
    (hcompile : definition.compile env.context = .ok compiled)
    (hname : env.dependencies.get? compiled.name = none) :
    ∃ report, take (.define definition none) env =
        some (report, env.cleared.enroll compiled.name compiled.registration) ∧
      report.answer = .defined compiled.name := by
  have hcleared : definition.compile (none.getD env.cleared.context) = .ok compiled := hcompile
  have hregister := env.cleared.register_of_unregistered hname compiled.registration
  have hstep := Step.run_define Procedure.dialogue env.cleared definition none
  rw [hcleared] at hstep
  dsimp only at hstep
  rw [hregister] at hstep
  exact ⟨_, take_of_run hstep, rfl⟩

/-- Between two steps, an expression is run with the result of a new variable of the same body,
unless something that it reads leads to that variable. -/
theorem exists_run_read_enroll (horderly : env.Orderly)
    (hpure : env.AllRegistered Registration.Pure) {expr : Expr} (htargets : expr.targets = [])
    {name : QualifiedName} {registration : Registration Procedure}
    (hname : env.dependencies.get? name = none) (hshape : registration.shape = .scalar)
    (hdialogue : registration.procedure.dialogue none = expr.dialogue (.topLevel env.context) none)
    (hapart : ∀ written ∈ expr.names, ¬ReflTransGen env.Reads (qualify env.context written) name) :
    ∃ result after after',
      env.run Procedure.dialogue (expr.dialogue (.topLevel env.context) none) =
        some (result, after) ∧
      (env.enroll name registration).run Procedure.dialogue (.request (.read name none)) =
        some (result, after') := by
  have hreads : (registration.procedure.dialogue none).Confined
      (Request.ReadsIn fun read => ¬ReflTransGen env.Reads read name) := by
    rw [hdialogue]
    refine (Expr.reading_topLevel htargets env.context).confined fun read hread => ?_
    obtain ⟨written, hmem, rfl⟩ := List.mem_map.mp hread
    exact hapart written hmem
  have hquery : (Step.eval expr).query env.context =
      some (registration.procedure.dialogue none) := by
    rw [hdialogue]
    rfl
  obtain ⟨footprint, hstores, hfollows⟩ := Step.follows_query hquery
  obtain ⟨result, after, hrun, -⟩ := horderly.exists_run hfollows hstores
  obtain ⟨after', hread⟩ := read_enroll_of_run horderly.idle.stack
    (fun other dependency hother => (hpure other dependency hother).reading) hname hshape hreads
    hrun
  rw [hdialogue] at hrun
  exact ⟨result, after, after', hrun, hread⟩

/-- Evaluating is defining and reading. After a session of compiled definitions that assign only
locals, an expression that assigns nothing has the same value or error at top level as a new
variable has that is defined by it and read, unless something that the expression reads leads to
that variable. -/
theorem eval_eq_define_read {session : Session}
    (h : ∀ step ∈ session.steps, step.localOnly = true) :
    ∃ reports env, session.run = some (reports, env) ∧
      ∀ (expr : Expr) (written source : String), expr.targets = [] →
        (∀ name ∈ expr.names, isValidName name = true) → isValidName written = true →
        env.dependencies.get? (qualify env.context written) = none →
        (∀ name ∈ expr.names,
          ¬ReflTransGen env.Reads (qualify env.context name) (qualify env.context written)) →
        ∃ result report after reports after',
          take (.eval expr) env = some (report, after) ∧ report.answer = .ofResult result ∧
          takeAll [.define (.ofBody written none expr source) none, .read (.written written) none]
            env = some (reports, after') ∧
          reports.map StepReport.answer =
            [.defined (qualify env.context written), .ofResult result] := by
  obtain ⟨reports, env, hrun, horderly, hpure⟩ := exists_pure h
  refine ⟨reports, env, hrun, fun expr written source htargets hnames hwritten hnew hapart => ?_⟩
  obtain ⟨compiled, hcompile, hname, hshape, hdialogue⟩ :=
    Definition.compile_ofBody htargets hnames hwritten source env.context
  rw [← hname] at hnew hapart ⊢
  obtain ⟨result, after, after', heval, hread⟩ :=
    exists_run_read_enroll (horderly.clear []) hpure htargets hnew hshape hdialogue hapart
  obtain ⟨defined, hdefine, hdefined⟩ := take_of_compile hcompile hnew
  have hquery : (Step.read (.written written) none).query
      (env.cleared.enroll compiled.name compiled.registration).context =
      some (.request (.read compiled.name none) : Exchange _) := by
    rw [hname]
    rfl
  refine ⟨result, _, after, _, after', take_of_query rfl heval, rfl,
    takeAll_cons hdefine (takeAll_cons (take_of_query hquery hread) rfl), ?_⟩
  rw [List.map_cons, hdefined]
  rfl

/-- In a context, items of a variable and two more variables that read each other. -/
def tangled : Session where
  config := .standard
  context := .root
  steps :=
    [.enter ⟨["s"]⟩, .assign (.written "y") (.int 2),
      .define (.ofBody "v" (some "i")
        (.sequence [.assign "z" (.name "y"), .binary .multiply (.name "z") (.name "i")]) "") none,
      .define (.ofBody "a" none
        (.binary .add (.item (.name "v") (.constant (.int 3))) (.name "b")) "") none,
      .define (.ofBody "b" none (.binary .add (.name "s.a") (.name "y")) "") none,
      .read (.written "v") (some (.position 3))]

/-- An expression over the two and an item. -/
def tangledSum : Expr :=
  .binary .add (.name "s.b") (.item (.name "v") (.constant (.int 2)))

/-- Both times the cycle is reported from within, without the new variable. -/
theorem eval_eq_define_read_tangled :
    ∃ reports env, tangled.run = some (reports, env) ∧
      ∃ result report after reports after',
        take (.eval tangledSum) env = some (report, after) ∧ report.answer = .ofResult result ∧
        takeAll [.define (.ofBody "t" none tangledSum "") none, .read (.written "t") none] env =
          some (reports, after') ∧
        reports.map StepReport.answer = [.defined ⟨⟨["s"]⟩, "t"⟩, .ofResult result] ∧
        report.answer.failure? = some (.circularDependency ⟨⟨["s"]⟩, "b"⟩
          [⟨⟨["s"]⟩, "b"⟩, ⟨⟨["s"]⟩, "a"⟩, ⟨⟨["s"]⟩, "b"⟩]) := by
  have hlocal : ∀ step ∈ tangled.steps, step.localOnly = true := by
    rw [← List.all_eq_true]
    decide +kernel
  have hcomputed : tangled.run.map (fun outcome =>
      (outcome.2.context, outcome.2.dependencies.contains ⟨⟨["s"]⟩, "t"⟩,
        outcome.2.dependencies.values.all fun dependency =>
          decide (⟨⟨["s"]⟩, "t"⟩ ∉ dependency.reads),
        (take (.eval tangledSum) outcome.2).bind fun outcome => outcome.1.answer.failure?)) =
      some (⟨["s"]⟩, false, true, some (.circularDependency ⟨⟨["s"]⟩, "b"⟩
        [⟨⟨["s"]⟩, "b"⟩, ⟨⟨["s"]⟩, "a"⟩, ⟨⟨["s"]⟩, "b"⟩])) := by
    decide +kernel
  have hnames : ∀ name ∈ tangledSum.names, isValidName name = true ∧
      qualify ⟨["s"]⟩ name ≠ ⟨⟨["s"]⟩, "t"⟩ := by
    decide +kernel
  obtain ⟨reports, env, hrun, heval⟩ := eval_eq_define_read hlocal
  rw [hrun, Option.map_some, Option.some.injEq, Prod.mk.injEq, Prod.mk.injEq, Prod.mk.injEq]
    at hcomputed
  obtain ⟨hcontext, hnew, hunread, hfailure⟩ := hcomputed
  dsimp only at hcontext hnew hunread hfailure
  rw [hcontext] at heval
  -- Nothing reads the new variable, so nothing leads to it.
  have hapart : ∀ name ∈ tangledSum.names,
      ¬ReflTransGen env.Reads (qualify ⟨["s"]⟩ name) (qualify ⟨["s"]⟩ "t") := by
    intro name hname hpath
    rcases ReflTransGen.cases_tail hpath with heq | ⟨reader, -, dependency, hget, hread⟩
    · exact (hnames name hname).2 heq.symm
    · have hmem := List.all_eq_true.mp hunread dependency (Table.mem_values_of_get? hget)
      exact of_decide_eq_true hmem hread
  have hnone : env.dependencies.get? (qualify ⟨["s"]⟩ "t") = none :=
    Option.isNone_iff_eq_none.mp (Option.isSome_eq_false_iff.mp hnew)
  obtain ⟨result, report, after, answers, after', htake, hanswer, hall, hanswers⟩ :=
    heval tangledSum "t" "" rfl (fun name hname => (hnames name hname).1) (by decide +kernel)
      hnone hapart
  rw [htake, Option.bind_some] at hfailure
  exact ⟨reports, env, hrun, result, report, after, answers, after', htake, hanswer, hall, hanswers,
    hfailure⟩

end Session
end Memograph
