import Memograph.Session
import Memograph.Proofs.Attribution

/-! What the steps of a session run. A step is a dialogue like any other; taken apart, each comes
down to one request, and a read or a top-level evaluation to the dialogue that it asks. -/

namespace Memograph

namespace Environment

variable {π α β : Type}

theorem converse_bind
    (respond : (request : Request π) → Environment π → Option (request.Reply × Environment π))
    (d : Dialogue π α) (f : α → Dialogue π β) (env : Environment π) :
    converse respond (d.bind f) env =
      (converse respond d env).bind fun outcome => converse respond (f outcome.1) outcome.2 := by
  induction d generalizing env with
  | done result => rfl
  | ask request next ih =>
      rw [Dialogue.ask_bind, converse, converse]
      cases respond request env with
      | none => rfl
      | some reaction => exact ih reaction.1 reaction.2

theorem run_bind (meaning : Meaning π) (d : Dialogue π α) (f : α → β) (env : Environment π) :
    env.run meaning (d.bind fun result => .done (f result)) =
      (env.run meaning d).map fun outcome => (f outcome.1, outcome.2) := by
  unfold run
  rw [runWithin_eq_converse, runWithin_eq_converse, converse_bind]
  cases converse (respond (nested meaning env.depthLimit) meaning) d env <;> rfl

theorem run_read {meaning : Meaning π} {env after : Environment π} {name : QualifiedName}
    {index : Option Int64} {answer : Except Error Value}
    (h : env.read (nested meaning env.depthLimit) meaning name index = some (answer, after)) :
    env.run meaning (.request (.read name index)) = some (answer, after) := by
  rw [run, runWithin_eq_converse, Dialogue.request, converse_read h]
  rfl

end Environment

namespace Exchange

open Dialogue

/-! Names and contexts are resolved by looks at the environment. -/

variable {P : Request Procedure → Prop}

theorem confined_inspect (hinspect : P .inspect) : inspect.Confined P := confined_request hinspect

theorem confined_resolve (hinspect : P .inspect) (name : NameRef) : (resolve name).Confined P := by
  cases name with
  | written name => exact (confined_inspect hinspect).bind fun _ => trivial
  | qualified name => trivial

theorem confined_resolveAll (hinspect : P .inspect) (refs : List NameRef) :
    (resolveAll refs).Confined P := by
  induction refs with
  | nil => trivial
  | cons first rest ih =>
      exact (confined_resolve hinspect first).bind fun _ => ih.bind fun _ => trivial

theorem confined_contextOrActive (hinspect : P .inspect) (context : Option ContextPath) :
    (contextOrActive context).Confined P := by
  cases context with
  | none => exact (confined_inspect hinspect).bind fun _ => trivial
  | some context => trivial

end Exchange

/-- The variable that a name in a step stands for in a context. -/
def NameRef.resolve (context : ContextPath) : NameRef → QualifiedName
  | .written name => qualify context name
  | .qualified name => name

namespace Step

variable {π : Type}

/-- The dialogue whose result a step answers with, if it is a read or a top-level evaluation. -/
def query (context : ContextPath) : Step → Option (Dialogue π (Except Error Value))
  | .read name index =>
      some (.request (.read (name.resolve context) (index.map (Exchange.position 0))))
  | .eval expr => some (expr.dialogue (.topLevel context) none)
  | _ => none

theorem follows_query {step : Step} {context : ContextPath}
    {d : Dialogue π (Except Error Value)} (h : step.query context = some d) :
    ∃ footprint : Footprint, footprint.stores = [] ∧ d.Follows footprint (fun _ _ => True) [] := by
  cases step with
  | read name index =>
      cases h
      exact ⟨⟨[name.resolve context], [], []⟩, rfl,
        .read List.mem_cons_self (fun _ => rfl) fun _ => .done trivial⟩
  | eval expr =>
      cases h
      refine ⟨Footprint.ofExpr (.topLevel context) expr, ?_,
        (Expr.follows_dialogue _ expr none).imp fun _ _ _ => trivial⟩
      exact List.filter_eq_nil_iff.mpr fun _ _ => by simp [Resolution.topLevel]
  | _ => cases h

variable (meaning : Meaning Procedure) (env : Environment Procedure)

theorem run_query {step : Step} {d : Exchange (Except Error Value)}
    (h : step.query env.context = some d) :
    env.run meaning (step.dialogue 0) =
      (env.run meaning d).map fun outcome => (.ofResult outcome.1, outcome.2) := by
  rw [← Environment.run_bind]
  unfold Environment.run
  rw [Environment.runWithin_eq_converse, Environment.runWithin_eq_converse]
  cases step with
  | read name index =>
      cases h
      cases name <;> rfl
  | eval expr =>
      cases h
      rfl
  | _ => cases h

theorem history_inspect {α : Type} (depth : Nat)
    (next : Environment Procedure → Exchange α) :
    Environment.history meaning depth (.ask .inspect next) env =
      .asked .inspect :: Environment.history meaning depth (next env) env := rfl

/-- A query is run as it is, behind the look at the context that it may need. -/
theorem history_query {step : Step} {d : Exchange (Except Error Value)}
    (h : step.query env.context = some d) (depth : Nat) :
    ∃ looks, (looks = [] ∨ looks = [.asked .inspect]) ∧
      Environment.history meaning depth (step.dialogue 0) env =
        looks ++ Environment.history meaning depth d env := by
  have hanswer : Environment.history meaning depth
      (d.bind fun result => .done (Answer.ofResult result)) env =
        Environment.history meaning depth d env := Environment.events_map _ _ _
  cases step with
  | read name index =>
      cases h
      cases name with
      | qualified name => exact ⟨[], Or.inl rfl, hanswer⟩
      | written name =>
          refine ⟨[.asked .inspect], Or.inr rfl, ?_⟩
          rw [← hanswer]
          exact history_inspect meaning env depth _
  | eval expr =>
      cases h
      refine ⟨[.asked .inspect], Or.inr rfl, ?_⟩
      rw [← hanswer]
      exact history_inspect meaning env depth _
  | _ => cases h

theorem run_enter (context : ContextPath) :
    env.run meaning (dialogue 0 (.enter context)) =
      some (.entered context, { env with context }) := by
  rw [Environment.run, Environment.runWithin_eq_converse]
  rfl

theorem run_assign (name : NameRef) (value : Value) :
    env.run meaning (dialogue 0 (.assign name value)) =
      some (.invalidated (env.assign (name.resolve env.context) value).1,
        (env.assign (name.resolve env.context) value).2) := by
  rw [Environment.run, Environment.runWithin_eq_converse]
  cases name <;> rfl

theorem run_notify (name : NameRef) :
    env.run meaning (dialogue 0 (.notify name)) =
      some (.invalidated (env.notify (name.resolve env.context)).1,
        (env.notify (name.resolve env.context)).2) := by
  rw [Environment.run, Environment.runWithin_eq_converse]
  cases name <;> rfl

theorem run_invalidate (name : NameRef) :
    env.run meaning (dialogue 0 (.invalidate name)) =
      if env.dependencies.contains (name.resolve env.context) then
        some (.invalidated (env.notify (name.resolve env.context)).1,
          (env.notify (name.resolve env.context)).2)
      else some (.failed (.error (.unknownDependency (name.resolve env.context))), env) := by
  rw [Environment.run, Environment.runWithin_eq_converse]
  have hresolve : Environment.converse
      (Environment.respond (Environment.nested meaning env.depthLimit) meaning)
      (dialogue 0 (.invalidate name)) env =
        Environment.converse
          (Environment.respond (Environment.nested meaning env.depthLimit) meaning)
          (if env.dependencies.contains (name.resolve env.context) then
            .ask (.notify (name.resolve env.context)) fun names => .done (.invalidated names)
          else .done (.failed (.error (.unknownDependency (name.resolve env.context))))) env := by
    cases name <;> rfl
  rw [hresolve]
  split <;> rfl

theorem runWithin_define (depth : Nat) (slot : Int64) (definition : Definition)
    (context : Option ContextPath) :
    Environment.runWithin meaning depth (dialogue slot (.define definition context)) env =
      match definition.compile (context.getD env.context) with
      | .error cause => some (.failed (.error cause), env)
      | .ok compiled =>
        match env.register compiled.name compiled.registration with
        | (.ok (), after) => some (.defined compiled.name, after)
        | (.error cause, after) => some (.failed (.error cause), after) := by
  rw [Environment.runWithin_eq_converse]
  have hcontext : Environment.converse
      (Environment.respond (Environment.nested meaning depth) meaning)
      (dialogue slot (.define definition context)) env =
        Environment.converse
          (Environment.respond (Environment.nested meaning depth) meaning)
          (Exchange.define definition (some (context.getD env.context))) env := by
    cases context <;> rfl
  rw [hcontext]
  simp only [Exchange.define, Exchange.contextOrActive, bind, pure, Dialogue.done_bind]
  cases definition.compile (context.getD env.context) with
  | error cause => rfl
  | ok compiled =>
      dsimp only
      change Environment.converse _ (.ask (.register compiled.name compiled.registration) _) env = _
      rw [Environment.converse, Environment.respond]
      dsimp only
      cases env.register compiled.name compiled.registration with
      | mk result after => cases result <;> rfl

theorem run_define (definition : Definition) (context : Option ContextPath) :
    env.run meaning (dialogue 0 (.define definition context)) =
      match definition.compile (context.getD env.context) with
      | .error cause => some (.failed (.error cause), env)
      | .ok compiled =>
        match env.register compiled.name compiled.registration with
        | (.ok (), after) => some (.defined compiled.name, after)
        | (.error cause, after) => some (.failed (.error cause), after) :=
  runWithin_define meaning env env.depthLimit 0 definition context

end Step
end Memograph
