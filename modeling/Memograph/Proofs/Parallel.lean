import Memograph.Proofs.Footprint

/-! Runs side by side. Two dialogues are parallel if they ask the same requests, whatever they are
replied, and end in related results. An expression that is evaluated twice is evaluated in parallel
as long as each of its names stands for the same both times: for the same variable, or for a local
that is the same in the beginning. -/

namespace Memograph

variable {π : Type}

namespace Dialogue

variable {α α' β β' : Type}

/-- Whether two dialogues ask the same requests, whatever they are replied, and end in related
results. -/
inductive Parallel (R : α → α' → Prop) : Dialogue π α → Dialogue π α' → Prop
  | done {result : α} {result' : α'} (h : R result result') :
      Parallel R (.done result) (.done result')
  | ask {request : Request π} {next : request.Reply → Dialogue π α}
      {next' : request.Reply → Dialogue π α'} (h : ∀ reply, Parallel R (next reply) (next' reply)) :
      Parallel R (.ask request next) (.ask request next')

theorem Parallel.bind {R : α → α' → Prop} {S : β → β' → Prop} {d : Dialogue π α}
    {d' : Dialogue π α'} {f : α → Dialogue π β} {f' : α' → Dialogue π β'} (h : Parallel R d d')
    (hf : ∀ result result', R result result' → Parallel S (f result) (f' result')) :
    Parallel S (d.bind f) (d'.bind f') := by
  induction h with
  | done hresult => exact hf _ _ hresult
  | ask _ ih => exact .ask ih

theorem Parallel.refl (d : Dialogue π α) : Parallel Eq d d := by
  induction d with
  | done result => exact .done rfl
  | ask request next ih => exact .ask ih

/-- Dialogues with the same requests and the same result are the same. -/
theorem Parallel.eq {d d' : Dialogue π α} (h : Parallel Eq d d') : d = d' := by
  induction h with
  | done hresult => rw [hresult]
  | ask _ ih => rw [funext ih]

end Dialogue

/-! ### Parts of a run -/

/-- Whether locals have the same values under some names. -/
def Agree (kept : String → Prop) (locals locals' : Table String Value) : Prop :=
  ∀ name, kept name → locals.get? name = locals'.get? name

theorem Agree.insert {kept : String → Prop} {locals locals' : Table String Value}
    (h : Agree kept locals locals') (written : String) (value : Value) :
    Agree kept (locals.insert written value) (locals'.insert written value) := by
  intro name hname
  rw [Table.get?_insert, Table.get?_insert, h name hname]

namespace Body

variable {α β : Type} {kept : String → Prop}

/-- Whether two parts of runs have ended alike, with locals that agree under some names. -/
inductive Matches (kept : String → Prop) :
    Except Error (α × Table String Value) → Except Error (α × Table String Value) → Prop
  | failed (cause : Error) : Matches kept (.error cause) (.error cause)
  | done {locals locals' : Table String Value} (result : α) (h : Agree kept locals locals') :
      Matches kept (.ok (result, locals)) (.ok (result, locals'))

/-- Whether two parts of runs are parallel from locals that agree under some names. -/
def Parallel (kept : String → Prop) (part part' : Body π α) : Prop :=
  ∀ locals locals', Agree kept locals locals' →
    Dialogue.Parallel (Matches kept) (part locals) (part' locals')

theorem Parallel.pure (result : α) :
    Parallel kept (Pure.pure result : Body π α) (Pure.pure result) :=
  fun _ _ h => .done (.done result h)

theorem Parallel.bind {part part' : Body π α} {f f' : α → Body π β}
    (h : Parallel kept part part') (hf : ∀ result, Parallel kept (f result) (f' result)) :
    Parallel kept (part >>= f) (part' >>= f') := by
  intro locals locals' hlocals
  change Dialogue.Parallel _
    (Dialogue.bind (part locals)
      (ExceptT.bindCont fun state : α × Table String Value => f state.1 state.2))
    (Dialogue.bind (part' locals')
      (ExceptT.bindCont fun state : α × Table String Value => f' state.1 state.2))
  refine (h locals locals' hlocals).bind fun _ _ hresult => ?_
  cases hresult with
  | failed cause => exact .done (.failed cause)
  | done result hagree => exact hf result _ _ hagree

theorem parallel_value (d : Dialogue π (Except Error Value)) :
    Parallel kept (value d) (value d) := by
  intro locals locals' hlocals
  refine (Dialogue.Parallel.refl d).bind fun result result' heq => ?_
  subst heq
  cases result with
  | error cause => exact .done (.failed cause)
  | ok value => exact .done (.done value hlocals)

theorem parallel_ofExcept (result : Except Error α) :
    Parallel kept (ofExcept result : Body π α) (ofExcept result) := by
  intro locals locals' hlocals
  cases result with
  | error cause => exact .done (.failed cause)
  | ok value => exact .done (.done value hlocals)

theorem parallel_ask (request : Request π) : Parallel kept (ask request) (ask request) :=
  fun _ _ hlocals => .ask fun reply => .done (.done reply hlocals)

/-! ### Names -/

section Bound

variable {resolution : Resolution} {written : String} {name : QualifiedName}

theorem read_of_global (h : resolution.global? written = some name) :
    (read resolution written : Body π Value) = value (.request (.read name none)) := by
  unfold Resolution.global? at h
  unfold read
  cases hresolve : resolution.resolve written with
  | global other =>
      rw [hresolve] at h
      cases h
      rfl
  | indexer => simp [hresolve] at h
  | localName => simp [hresolve] at h

theorem get_bind (f : Table String Value → Body π β) (locals : Table String Value) :
    (get >>= f : Body π β) locals = f locals locals := rfl

/-- The value of a local is what the locals have under its name. -/
theorem read_of_local (h : resolution.global? written = none) :
    (read resolution written : Body π Value) = get >>= fun locals =>
      match locals.get? written with
      | some found => Pure.pure found
      | none => throw (.undefinedVariable (qualify resolution.context written)) := by
  unfold Resolution.global? at h
  unfold read
  cases hresolve : resolution.resolve written with
  | global other => simp [hresolve] at h
  | indexer => rfl
  | localName => rfl

theorem assign_of_global (h : resolution.global? written = some name) (result : Value) :
    (assign resolution written result : Body π Unit) =
      if resolution.owner = some name then ask (.store name result)
      else ask (.assign name result) >>= fun _ => Pure.pure () := by
  unfold Resolution.global? at h
  unfold assign
  cases hresolve : resolution.resolve written with
  | global other =>
      rw [hresolve] at h
      cases h
      rfl
  | indexer => simp [hresolve] at h
  | localName => simp [hresolve] at h

/-- Assigning a local asks nothing of the environment. -/
theorem assign_of_local (h : resolution.global? written = none) (result : Value)
    (locals : Table String Value) :
    (assign resolution written result : Body π Unit) locals =
      .done (.ok ((), locals.insert written result)) := by
  unfold Resolution.global? at h
  unfold assign
  cases hresolve : resolution.resolve written with
  | global other => simp [hresolve] at h
  | indexer => rfl
  | localName => rfl

end Bound

variable {resolution resolution' : Resolution} {written : String}

/-- A name is read alike if it stands for the same variable, or for a local that is the same. -/
theorem parallel_read (hname : resolution.global? written = resolution'.global? written)
    (hlocal : resolution.global? written = none →
      kept written ∧ resolution.context = resolution'.context) :
    Parallel kept (read resolution written : Body π Value) (read resolution' written) := by
  cases hglobal : resolution.global? written with
  | some name =>
      rw [read_of_global hglobal, read_of_global (hname ▸ hglobal)]
      exact parallel_value _
  | none =>
      obtain ⟨hkept, hcontext⟩ := hlocal hglobal
      intro locals locals' hlocals
      rw [read_of_local hglobal, read_of_local (hname ▸ hglobal), get_bind, get_bind,
        hlocals written hkept, hcontext]
      cases locals'.get? written with
      | none => exact .done (.failed _)
      | some found => exact .done (.done found hlocals)

/-- A name is assigned alike if it stands for the same variable, of the same owner, or for a
local. -/
theorem parallel_assign (hname : resolution.global? written = resolution'.global? written)
    (howner : resolution.global? written ≠ none → resolution.owner = resolution'.owner)
    (result : Value) :
    Parallel kept (assign resolution written result : Body π Unit)
      (assign resolution' written result) := by
  cases hglobal : resolution.global? written with
  | some name =>
      rw [assign_of_global hglobal, assign_of_global (hname ▸ hglobal),
        howner (by simp [hglobal])]
      split
      · exact parallel_ask _
      · exact (parallel_ask _).bind fun _ => .pure ()
  | none =>
      intro locals locals' hlocals
      rw [assign_of_local hglobal, assign_of_local (hname ▸ hglobal)]
      exact .done (.done () (hlocals.insert written result))

end Body

/-! ### Expressions -/

namespace Expr

variable {kept : String → Prop} {resolution resolution' : Resolution}

/-- Whether names that are read, and names that are assigned, stand for the same under two
resolutions, where the locals are the same under the names that are kept. -/
structure BoundAlike (kept : String → Prop) (resolution resolution' : Resolution)
    (reads assigned : List String) : Prop where
  names : ∀ written ∈ reads, resolution.global? written = resolution'.global? written
  locals : ∀ written ∈ reads, resolution.global? written = none →
    kept written ∧ resolution.context = resolution'.context
  targets : ∀ written ∈ assigned, resolution.global? written = resolution'.global? written
  owners : ∀ written ∈ assigned, resolution.global? written ≠ none →
    resolution.owner = resolution'.owner

theorem BoundAlike.subset {reads reads' assigned assigned' : List String}
    (h : BoundAlike kept resolution resolution' reads' assigned') (hreads : reads ⊆ reads')
    (hassigned : assigned ⊆ assigned') : BoundAlike kept resolution resolution' reads assigned where
  names := fun written hmem => h.names written (hreads hmem)
  locals := fun written hmem => h.locals written (hreads hmem)
  targets := fun written hmem => h.targets written (hassigned hmem)
  owners := fun written hmem => h.owners written (hassigned hmem)

theorem globalName?_congr {target : Expr}
    (h : BoundAlike kept resolution resolution' target.names target.targets) :
    globalName? resolution target = globalName? resolution' target := by
  cases target with
  | name written => exact h.names written List.mem_cons_self
  | _ => rfl

mutual

/-- An expression is evaluated alike where its names stand for the same. -/
theorem parallel_evaluate :
    ∀ expr : Expr, BoundAlike kept resolution resolution' expr.names expr.targets →
      Body.Parallel kept (evaluate resolution expr : Body π Value) (evaluate resolution' expr)
  | .constant value, _ => by
      rw [evaluate, evaluate]
      exact .pure value
  | .name written, h => by
      rw [evaluate, evaluate]
      exact Body.parallel_read (h.names written List.mem_cons_self)
        (h.locals written List.mem_cons_self)
  | .vector items, h => by
      rw [evaluate, evaluate]
      exact (parallel_evaluateAll items h).bind fun values => .pure _
  | .item target index, h => by
      have htarget := h.subset (List.subset_append_left _ _) (List.subset_append_left _ _)
      have hindex := h.subset (List.subset_append_right _ _) (List.subset_append_right _ _)
      rw [evaluate, evaluate, globalName?_congr htarget]
      refine (parallel_evaluate index hindex).bind fun position =>
        (Body.parallel_ofExcept position.asIndex).bind fun place => ?_
      split
      · exact Body.parallel_value _
      · exact (parallel_evaluate target htarget).bind fun value => Body.parallel_ofExcept _
  | .unary op operand, h => by
      rw [evaluate, evaluate]
      exact (parallel_evaluate operand h).bind fun value => Body.parallel_ofExcept _
  | .binary op left right, h => by
      have hleft := h.subset (List.subset_append_left _ _) (List.subset_append_left _ _)
      have hright := h.subset (List.subset_append_right _ _) (List.subset_append_right _ _)
      rw [evaluate, evaluate]
      exact (parallel_evaluate right hright).bind fun value =>
        (parallel_evaluate left hleft).bind fun value' => Body.parallel_ofExcept _
  | .assign written value, h => by
      have hvalue := h.subset (List.Subset.refl _) (List.subset_append_left _ _)
      have hwritten : written ∈ (Expr.assign written value).targets :=
        List.mem_append_right _ List.mem_cons_self
      rw [evaluate, evaluate]
      exact (parallel_evaluate value hvalue).bind fun result =>
        (Body.parallel_assign (h.targets written hwritten) (h.owners written hwritten) result).bind
          fun _ => .pure result
  | .sequence statements, h => by
      rw [evaluate, evaluate]
      exact parallel_evaluateSequence statements (.array []) h

theorem parallel_evaluateAll :
    ∀ exprs : List Expr,
      BoundAlike kept resolution resolution' (namesOfAll exprs) (targetsOfAll exprs) →
      Body.Parallel kept (evaluateAll resolution exprs : Body π (List Value))
        (evaluateAll resolution' exprs)
  | [], _ => by
      rw [evaluateAll, evaluateAll]
      exact .pure []
  | first :: rest, h => by
      have hfirst := h.subset (List.subset_append_left _ _) (List.subset_append_left _ _)
      have hrest := h.subset (List.subset_append_right _ _) (List.subset_append_right _ _)
      rw [evaluateAll, evaluateAll]
      exact (parallel_evaluate first hfirst).bind fun value =>
        (parallel_evaluateAll rest hrest).bind fun values => .pure _

theorem parallel_evaluateSequence :
    ∀ (statements : List Expr) (last : Value),
      BoundAlike kept resolution resolution' (namesOfAll statements) (targetsOfAll statements) →
      Body.Parallel kept (evaluateSequence resolution last statements : Body π Value)
        (evaluateSequence resolution' last statements)
  | [], last, _ => by
      rw [evaluateSequence, evaluateSequence]
      exact .pure last
  | statement :: statements, last, h => by
      have hfirst := h.subset (List.subset_append_left _ _) (List.subset_append_left _ _)
      have hrest := h.subset (List.subset_append_right _ _) (List.subset_append_right _ _)
      rw [evaluateSequence, evaluateSequence]
      exact (parallel_evaluate statement hfirst).bind fun value =>
        parallel_evaluateSequence statements value hrest

end

/-- Two runs of an expression that is evaluated alike are the same. -/
theorem run_evaluate_congr {expr : Expr} {locals locals' : Table String Value}
    (h : BoundAlike kept resolution resolution' expr.names expr.targets)
    (hlocals : Agree kept locals locals') :
    ((evaluate resolution expr : Body π Value).run' locals).run =
      ((evaluate resolution' expr).run' locals').run := by
  refine Dialogue.Parallel.eq ?_
  change Dialogue.Parallel _
    (Dialogue.bind (evaluate resolution expr locals)
      (ExceptT.bindCont fun state : Value × Table String Value => pure state.1))
    (Dialogue.bind (evaluate resolution' expr locals')
      (ExceptT.bindCont fun state : Value × Table String Value => pure state.1))
  refine (parallel_evaluate expr h locals locals' hlocals).bind fun _ _ hresult => ?_
  cases hresult with
  | failed cause => exact .done rfl
  | done result _ => exact .done rfl

end Expr
end Memograph
