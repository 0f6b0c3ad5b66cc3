import Memograph.Proofs.Cycles
import Memograph.Proofs.Parallel
import Memograph.Proofs.Recalling
import Memograph.Proofs.Refinement
import Memograph.Proofs.Runs
import Memograph.Proofs.Spellings

/-! What a body assigns. A run of a compiled body writes its own variable without a cascade, and a
variable that the body writes with a dot and its cascade at once. Everything else that it assigns is
a local: nobody is asked, and the rest of the run sees it only by its name. So a run that comes by
no other bodies than such that assign locals leaves what is stored and what is cached as it was,
wherever it ends. -/

namespace Memograph

variable {π α : Type}

/-! ### Turns -/

/-- A request of a run, with the environment that it is asked in and the one that it leaves. -/
structure Turn (π : Type) where
  before : Environment π
  request : Request π
  after : Environment π

namespace Turn

/-- Whether a turn is a read, or a write of a variable without a cascade, or one of another variable
among some with its cascade. -/
def Writes (own : QualifiedName) (others : List QualifiedName) (turn : Turn π) : Prop :=
  match turn.request with
  | .read _ _ => True
  | .store name value => name = own ∧ turn.after = turn.before.store name value
  | .assign name value => name ∈ others ∧ name ≠ own ∧
      turn.after = ((turn.before.store name value).notify name).2
  | _ => False

end Turn

namespace Environment

/-- The requests that a dialogue asks itself, first to last. What the recomputes ask that it sets
off is not among them. -/
def turns
    (respond : (request : Request π) → Environment π → Option (request.Reply × Environment π)) :
    Dialogue π α → Environment π → List (Turn π)
  | .done _, _ => []
  | .ask request next, env =>
      match respond request env with
      | none => []
      | some (reply, after) => ⟨env, request, after⟩ :: turns respond (next reply) after

section Turns

variable
  (respond : (request : Request π) → Environment π → Option (request.Reply × Environment π))

theorem before_of_head?_turns (d : Dialogue π α) (env : Environment π) :
    ∀ turn ∈ (turns respond d env).head?, turn.before = env := by
  cases d with
  | done result => exact fun turn hturn => by cases hturn
  | ask request next =>
      unfold turns
      split
      · exact fun turn hturn => by cases hturn
      · intro turn hturn
        cases hturn
        rfl

/-- Nothing happens between two turns. -/
theorem isChain_turns (d : Dialogue π α) (env : Environment π) :
    (turns respond d env).IsChain fun turn next => next.before = turn.after := by
  induction d generalizing env with
  | done result => exact .nil
  | ask request next ih =>
      unfold turns
      split
      · exact .nil
      · next reply after _ =>
          exact List.isChain_cons.mpr ⟨before_of_head?_turns respond (next reply) after,
            ih reply after⟩

theorem reply_of_mem_turns {P : Request π → Prop} {d : Dialogue π α} (hd : d.Confined P)
    {env : Environment π} {turn : Turn π} (hturn : turn ∈ turns respond d env) :
    P turn.request ∧ ∃ reply, respond turn.request turn.before = some (reply, turn.after) := by
  induction d generalizing env with
  | done result => cases hturn
  | ask request next ih =>
      unfold turns at hturn
      split at hturn
      · cases hturn
      · next reply after hreply =>
          rcases List.mem_cons.mp hturn with rfl | hlater
          · exact ⟨hd.1, reply, hreply⟩
          · exact ih reply (hd.2 reply) hlater

end Turns
end Environment

namespace Definition

variable {definition : Definition} {context : ContextPath} {compiled : Compiled}

/-- A variable that a body assigns and that is not its own is written with a dot. -/
theorem dotted_of_mem_assigns (husage : definition.usage = Usage.ofExpr definition.body)
    (h : definition.compile context = .ok compiled) {name : QualifiedName}
    (hname : name ∈ (Footprint.ofExpr compiled.resolution compiled.body).assigns) :
    name ∈ (definition.body.targets.filter isDotted).map (qualify context) ∧
      name ≠ compiled.name := by
  obtain ⟨hassigned, hother⟩ := List.mem_filter.mp hname
  obtain ⟨written, hwritten, hglobal⟩ := List.mem_filterMap.mp hassigned
  have hne : name ≠ compiled.name := by
    rintro rfl
    exact of_decide_eq_true hother (compile_owner h)
  rw [compile_global? h] at hglobal
  rw [compile_body h] at hwritten
  split at hglobal
  · cases hglobal
  · next hvariable =>
      obtain rfl := Option.some.inj hglobal
      have hlocal : written ∉ definition.locals := fun hmem => hvariable (Or.inr hmem)
      have hdotted : isDotted written = true := by
        by_contra hplain
        rw [Bool.not_eq_true] at hplain
        refine hlocal ((mem_locals_ofExpr_iff husage written).mpr ⟨hwritten, hplain, ?_⟩)
        rintro rfl
        exact hne (compile_name h).symm
      exact ⟨List.mem_map_of_mem (List.mem_filter.mpr ⟨hwritten, hdotted⟩), hne⟩

theorem writes_of_mem_turns (husage : definition.usage = Usage.ofExpr definition.body)
    (h : definition.compile context = .ok compiled) (meaning : Meaning π)
    (run : Environment.Runner π (Except Error Value)) {index : Option Int64} {env : Environment π}
    {turn : Turn π}
    (hturn : turn ∈ Environment.turns (Environment.respond run meaning)
      (compiled.body.dialogue compiled.resolution index) env) :
    turn.Writes compiled.name
      ((definition.body.targets.filter isDotted).map (qualify context)) := by
  obtain ⟨hallowed, reply, hreply⟩ := Environment.reply_of_mem_turns _
    (Expr.follows_dialogue compiled.resolution compiled.body index).confined hturn
  obtain ⟨before, request, after⟩ := turn
  cases request with
  | read name position => trivial
  | store name value =>
      obtain ⟨-, hafter⟩ := Prod.mk.inj (Option.some.inj hreply)
      have howner := of_decide_eq_true (List.mem_filter.mp hallowed).2
      rw [compile_owner h] at howner
      exact ⟨(Option.some.inj howner).symm, hafter.symm⟩
  | assign name value =>
      have hafter := congrArg Prod.snd (Option.some.inj hreply)
      obtain ⟨hdotted, hne⟩ := dotted_of_mem_assigns husage h hallowed
      exact ⟨hdotted, hne, hafter.symm⟩
  | _ => exact hallowed.elim

end Definition

/-! ### Locals -/

/-- Whether a name is kept apart from everything but later reads of it in the same run. -/
structure Resolution.KeepsApart (π : Type) (resolution : Resolution) (written : String) : Prop where
  /-- No run begins with a value for it. -/
  absent : ∀ index, (Expr.initialLocals resolution index).get? written = none
  /-- An assignment asks for nothing but what the assigned expression asks for. -/
  silent : ∀ (expr : Expr) (locals : Table String Value),
    (Expr.evaluate resolution (.assign written expr) : Body π Value) locals =
      Dialogue.bind (Expr.evaluate resolution expr locals) fun outcome =>
        .done (outcome.map fun state => (state.1, state.2.insert written state.1))
  /-- A later read gives what was assigned. -/
  seen : ∀ (locals : Table String Value) (value : Value),
    (Expr.evaluate resolution (.name written) : Body π Value) (locals.insert written value) =
      .done (.ok (value, locals.insert written value))
  /-- What does not read it runs as without it. -/
  unseen : ∀ expr : Expr, written ∉ expr.names →
    ∀ (locals : Table String Value) (value : Value),
      ((Expr.evaluate resolution expr : Body π Value).run' (locals.insert written value)).run =
        ((Expr.evaluate resolution expr : Body π Value).run' locals).run

theorem Resolution.keepsApart (π : Type) {resolution : Resolution} {written : String}
    (h : resolution.resolve written = .localName) : resolution.KeepsApart π written := by
  have hglobal : resolution.global? written = none := by
    unfold global?
    rw [h]
  constructor
  case absent =>
    have hindexer : resolution.indexer ≠ some written := by
      intro hindexer
      unfold resolve at h
      rw [if_pos hindexer] at h
      cases h
    intro index
    unfold Expr.initialLocals
    split
    · next indexer position heq =>
        rw [Table.get?_insert, if_neg, Table.get?_empty]
        rintro rfl
        exact hindexer heq
    · exact Table.get?_empty _
  case silent =>
    intro expr locals
    rw [Expr.evaluate]
    change Dialogue.bind (Expr.evaluate resolution expr locals) (ExceptT.bindCont
      fun state : Value × Table String Value =>
        (Body.assign resolution written state.1 >>= fun _ => pure state.1 : Body π Value)
          state.2) = _
    congr 1
    funext outcome
    cases outcome with
    | error cause => rfl
    | ok state =>
        change Dialogue.bind (Body.assign resolution written state.1 state.2)
          (ExceptT.bindCont fun after : Unit × Table String Value =>
            (pure state.1 : Body π Value) after.2) = _
        rw [Body.assign_of_local hglobal]
        rfl
  case seen =>
    intro locals value
    rw [Expr.evaluate, Body.read_of_local hglobal, Body.get_bind, Table.get?_insert, if_pos rfl]
    rfl
  case unseen =>
    intro expr hexpr locals value
    have halike : Expr.BoundAlike (fun name => name ≠ written) resolution resolution expr.names
        expr.targets := by
      refine ⟨fun _ _ => rfl, fun name hname _ => ⟨?_, rfl⟩, fun _ _ => rfl, fun _ _ _ => rfl⟩
      rintro rfl
      exact hexpr hname
    refine Expr.run_evaluate_congr halike fun name hname => ?_
    rw [Table.get?_insert, if_neg hname]

/-! ### What is left alone -/

/-- Whether a request changes nothing but what recomputes change that it starts, and the journal. -/
def Request.looks : Request π → Bool
  | .read _ _ | .evaluate _ _ | .inspect | .note _ => true
  | _ => false

namespace Launch.Enabled

variable {env : Environment π} {launch : Launch π}

/-- The slot of a recompute is none that has a value. -/
theorem ne_of_hasValue (h : launch.Enabled env) {entry : Entry} (hvalue : env.HasValue entry) :
    entry ≠ (launch.name, launch.slot) := by
  rintro rfl
  exact Environment.not_hasValue_of_uninitialized h.registered h.empty hvalue

theorem ne_of_scalar (h : launch.Enabled env) {name : QualifiedName}
    (hshape : env.shapeOf name = some .scalar) (hvalue : env.HasValue (name, none)) :
    name ≠ launch.name := by
  rintro rfl
  obtain ⟨index, hindex⟩ := h.index
  rw [Environment.shapeOf_of_get? h.registered] at hshape
  rw [Option.some.inj hshape] at hindex
  exact h.ne_of_hasValue hvalue (congrArg (Prod.mk launch.name) (Option.some.inj hindex))

end Launch.Enabled

namespace Environment

variable {env middle after : Environment π} {launch : Launch π}

/-- Whether all that is stored, all that is valid and the active context are as they were. -/
structure Untouched (env there : Environment π) : Prop where
  same : env.SameDependencies there
  stored : there.stored = env.stored
  context : there.context = env.context
  slots : ∀ entry, env.HasValue entry → there.slotOf entry = env.slotOf entry
  /-- A scalar dependency with a value is as it was in every respect. -/
  scalars : ∀ name, env.shapeOf name = some .scalar → env.HasValue (name, none) →
    there.dependencies.get? name = env.dependencies.get? name

namespace Untouched

theorem trans (h : env.Untouched middle) (h' : middle.Untouched after) : env.Untouched after where
  same := h.same.trans h'.same
  stored := h'.stored.trans h.stored
  context := h'.context.trans h.context
  slots := by
    intro entry hvalue
    have hslot := h.slots entry hvalue
    exact (h'.slots entry ((hasValue_congr hslot).mpr hvalue)).trans hslot
  scalars := by
    intro name hshape hvalue
    have hkept := (hasValue_congr (h.slots _ hvalue)).mpr hvalue
    exact (h'.scalars name ((h.same.shapeOf name).trans hshape) hkept).trans
      (h.scalars name hshape hvalue)

/-- A recompute is of a slot without a value, so its end changes none that has one. -/
theorem finish (h : env.Untouched middle) (hlaunch : launch.Enabled env)
    (result : Except Error Value) : env.Untouched (launch.finish middle result) := by
  obtain ⟨running, hrunning, -, hserial⟩ := h.same.get?_eq_some hlaunch.registered
  rw [Launch.finish, ← hserial]
  constructor
  case same => exact h.same.trans (sameDependencies_finish hrunning _ _ result)
  case stored =>
    rw [finish_eq hrunning]
    exact h.stored
  case context =>
    rw [finish_eq hrunning]
    exact h.context
  case slots =>
    intro entry hvalue
    rw [slotOf_finish_of_ne hrunning _ _ _ (hlaunch.ne_of_hasValue hvalue)]
    exact h.slots entry hvalue
  case scalars =>
    intro name hshape hvalue
    rw [get?_finish hrunning, if_neg (hlaunch.ne_of_scalar hshape hvalue)]
    exact h.scalars name hshape hvalue

end Untouched

theorem untouched_start (h : launch.Enabled env) : env.Untouched (launch.start env) where
  same := sameDependencies_start h.registered launch.slot
  stored := rfl
  context := rfl
  slots := fun entry hvalue => slotOf_start h.registered launch.slot (h.ne_of_hasValue hvalue)
  scalars := by
    intro name hshape hvalue
    rw [Launch.start, get?_start, if_neg (h.ne_of_scalar hshape hvalue)]

theorem untouched_effect {request : Request π} (h : request.looks = true) (env : Environment π) :
    env.Untouched (request.effect env) := by
  have hsame : request.effect env = { env with journal := (request.effect env).journal } := by
    cases request with
    | read name index => rfl
    | evaluate name index => rfl
    | inspect => rfl
    | note answer => rfl
    | _ => cases h
  rw [hsame]
  exact ⟨⟨rfl, fun _ => rfl⟩, rfl, rfl, fun _ _ => rfl, fun _ _ _ => rfl⟩

theorem lasting_untouched :
    Lasting (fun request : Request π => request.looks = true) Untouched where
  refl := fun env => ⟨.refl env, rfl, rfl, fun _ _ => rfl, fun _ _ _ => rfl⟩
  trans := Untouched.trans
  asked := fun hlooks _ => untouched_effect hlooks _
  began := untouched_start
  ended := fun result hlaunch h _ => ((untouched_start hlaunch).trans h).finish hlaunch result

end Environment

/-! ### Bodies that assign only locals -/

/-- Whether a procedure assigns nothing but locals. A script has none, so it has to leave everything
alone. -/
def Procedure.AssignsLocals : Procedure → Prop
  | .compiled resolution body => ∀ target ∈ body.targets, resolution.global? target = none
  | .script steps verdict => ∀ slot,
    (Procedure.dialogue (.script steps verdict) slot).Confined fun request => request.looks = true

theorem Expr.confined_looks {resolution : Resolution} {body : Expr}
    (h : ∀ target ∈ body.targets, resolution.global? target = none) (index : Option Int64) :
    (body.dialogue resolution index : Dialogue π (Except Error Value)).Confined
      fun request => request.looks = true := by
  have htargets : body.targets.filterMap resolution.global? = [] :=
    List.filterMap_eq_nil_iff.mpr h
  refine (follows_dialogue resolution body index).confined.imp fun request hrequest => ?_
  cases request with
  | read name index => rfl
  | assign name value =>
      change name ∈ List.filter _ (body.targets.filterMap resolution.global?) at hrequest
      rw [htargets] at hrequest
      cases hrequest
  | store name value =>
      change name ∈ List.filter _ (body.targets.filterMap resolution.global?) at hrequest
      rw [htargets] at hrequest
      cases hrequest
  | _ => exact hrequest.elim

theorem Procedure.AssignsLocals.confined {procedure : Procedure} (h : procedure.AssignsLocals)
    (slot : Option Int64) :
    (Procedure.dialogue procedure slot).Confined fun request => request.looks = true := by
  cases procedure with
  | compiled resolution body => exact Expr.confined_looks h slot
  | script steps verdict => exact h slot

/-- Recomputes run what was registered in the beginning. -/
theorem Environment.assignsLocals_of_began {env : Environment Procedure}
    (h : env.AllRegistered fun _ registration => registration.procedure.AssignsLocals)
    {d : Exchange α} (hd : d.Confined fun request => request.looks = true) {depth : Nat}
    {launch : Launch Procedure}
    (hbegan : .began launch ∈ history Procedure.dialogue depth d env) :
    launch.dependency.procedure.AssignsLocals := by
  have hlasts := lasts_history lasting_untouched depth hd
    (confines_history (fun _ huntouched => huntouched.same)
      (fun name dependency hname slot => (h name dependency hname).confined slot) depth d)
  obtain ⟨before, rest, hsplit⟩ := List.append_of_mem hbegan
  have hbefore : before ++ [.began launch] <+: history Procedure.dialogue depth d env :=
    ⟨rest, by rw [hsplit, List.append_assoc, List.singleton_append]⟩
  have hsame := (hlasts before ((List.prefix_append _ _).trans hbefore)).same
  exact hsame.allRegistered h _ _ (enabled_of_history hbefore).registered

namespace Definition

open Environment

/-- What a run of a compiled definition writes. What the body asks for itself is one turn after the
other, and each is a read, a write of the defined variable without a cascade, or a write of another
variable that the body writes with a dot, which the cascade of that variable is part of. A local is
kept apart from all but later reads of it in the same run. So if the definition and the recomputes
that the run sets off assign only locals, then nothing that is stored or valid and not the context
has changed at any moment of the run, whether it succeeds, fails or is cut short. -/
theorem compile_writes {definition : Definition} {context : ContextPath} {compiled : Compiled}
    (husage : definition.usage = Usage.ofExpr definition.body)
    (hcompile : definition.compile context = .ok compiled) :
    (∀ (env : Environment Procedure) (index : Option Int64) (depth : Nat),
      ((turns (respond (nested Procedure.dialogue depth) Procedure.dialogue)
        (compiled.body.dialogue compiled.resolution index) env).IsChain
          fun turn next => next.before = turn.after) ∧
      ∀ turn ∈ turns (respond (nested Procedure.dialogue depth) Procedure.dialogue)
          (compiled.body.dialogue compiled.resolution index) env,
        turn.Writes compiled.name
          ((definition.body.targets.filter isDotted).map (qualify context))) ∧
    (∀ written, compiled.resolution.resolve written = .localName →
      compiled.resolution.KeepsApart Procedure written) ∧
    (definition.localOnly = true →
      ∀ (env : Environment Procedure) (index : Option Int64) (depth : Nat),
      (∀ launch, .began launch ∈ history Procedure.dialogue depth
          (compiled.body.dialogue compiled.resolution index) env →
        launch.dependency.procedure.AssignsLocals) →
      (∀ events, events <+: history Procedure.dialogue depth
          (compiled.body.dialogue compiled.resolution index) env →
        env.Untouched (env.after events)) ∧
      ∀ result after, runWithin Procedure.dialogue depth
          (compiled.body.dialogue compiled.resolution index) env = some (result, after) →
        env.Untouched after) := by
  refine ⟨fun env index depth => ⟨isChain_turns _ _ env, fun turn hturn => ?_⟩,
    fun written => Resolution.keepsApart Procedure, fun hlocal env index depth hbegan => ?_⟩
  · exact writes_of_mem_turns husage hcompile _ _ hturn
  · have hlasts := lasts_history lasting_untouched depth
      (Expr.confined_looks (targets_of_localOnly husage hlocal hcompile) index)
      fun before launch hbefore _ =>
        (hbegan launch (hbefore.subset (List.mem_append_right _ List.mem_cons_self))).confined
          launch.slot
    refine ⟨hlasts, fun result after hrun => ?_⟩
    rw [((traces_history _ _ _ _).path result after hrun).eq_after]
    exact hlasts _ (List.prefix_refl _)

/-- A variable that its body assigns, next to a local and a variable of another context. -/
def recording : Definition :=
  .ofBody "v" (some "i")
    (.sequence [.assign "t" (.binary .add (.name "i") (.name "y")), .assign "s.z" (.name "t"),
      .assign "v" (.item (.name "w") (.name "t"))]) ""

/-- A variable over a local and one that has no value. -/
def scratching : Definition :=
  .ofBody "x" none
    (.sequence [.assign "t" (.name "y"), .binary .multiply (.name "t") (.name "u")]) ""

/-- A variable over a local and a stored one. -/
def scratch : Environment Procedure :=
  .ofDefinitions .standard .root (Table.ofList [(⟨.root, "z"⟩, .int 2)])
    [(.ofBody "y" none
      (.sequence [.assign "t" (.name "z"), .binary .add (.name "t") (.constant (.int 1))]) "",
      .root)]

/-- One definition writes itself and another variable. One that reads a local of its own after
another variable was computed with a local of the same name fails, and leaves everything alone. -/
theorem compile_writes_recording :
    (∃ compiled, recording.compile .root = .ok compiled ∧
      compiled.resolution.KeepsApart Procedure "t" ∧
      ∀ (env : Environment Procedure) (index : Option Int64) (depth : Nat),
      ∀ turn ∈ turns (respond (nested Procedure.dialogue depth) Procedure.dialogue)
          (compiled.body.dialogue compiled.resolution index) env,
        turn.Writes ⟨.root, "v"⟩ [⟨⟨["s"]⟩, "z"⟩]) ∧
    ∃ compiled result after, scratching.compile .root = .ok compiled ∧
      scratch.run Procedure.dialogue (compiled.body.dialogue compiled.resolution none) =
        some (result, after) ∧
      errorOf result = some (.undefinedVariable ⟨.root, "u"⟩) ∧ scratch.Untouched after := by
  constructor
  · cases hcompile : recording.compile .root with
    | error cause =>
        have hok : (recording.compile .root).toOption.isSome = true := by decide +kernel
        rw [hcompile] at hok
        cases hok
    | ok compiled =>
        obtain ⟨hturns, hlocals, -⟩ := compile_writes rfl hcompile
        have hname : compiled.name = ⟨.root, "v"⟩ := by
          rw [compile_name hcompile]
          decide +kernel
        have hdotted : (recording.body.targets.filter isDotted).map (qualify .root) =
            [⟨⟨["s"]⟩, "z"⟩] := by
          decide +kernel
        rw [hname, hdotted] at hturns
        refine ⟨compiled, rfl, hlocals "t" ?_, fun env index depth => (hturns env index depth).2⟩
        rw [compile_resolve hcompile]
        decide +kernel
  · have hrun : ((scratching.compile .root).toOption.bind fun compiled =>
        (scratch.run Procedure.dialogue (compiled.body.dialogue compiled.resolution none)).map
          fun outcome => errorOf outcome.1) = some (some (.undefinedVariable ⟨.root, "u"⟩)) := by
      decide +kernel
    obtain ⟨compiled, hcompiled, hrun⟩ := Option.bind_eq_some_iff.mp hrun
    obtain ⟨⟨result, after⟩, hrun, herror⟩ := Option.map_eq_some_iff.mp hrun
    have hcompile : scratching.compile .root = .ok compiled := by
      cases hresult : scratching.compile .root with
      | error cause =>
          rw [hresult] at hcompiled
          cases hcompiled
      | ok other =>
          rw [hresult] at hcompiled
          exact congrArg Except.ok (Option.some.inj hcompiled)
    have hregistered : scratch.AllRegistered fun _ registration =>
        registration.procedure.AssignsLocals := by
      refine allRegistered_ofDefinitions _ _ _ fun entry hentry compiled h => ?_
      obtain rfl := List.mem_singleton.mp hentry
      exact targets_of_localOnly rfl (by decide +kernel) h
    have huntouched := (compile_writes rfl hcompile).2.2 (by decide +kernel) scratch none
      scratch.depthLimit fun launch => assignsLocals_of_began hregistered
        (Expr.confined_looks (targets_of_localOnly rfl (by decide +kernel) hcompile) none)
    exact ⟨compiled, result, after, hcompile, hrun, herror, huntouched.2 result after hrun⟩

end Definition
end Memograph
