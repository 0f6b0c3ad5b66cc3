import Memograph.Proofs.History

/-! Who asks. Every request of a run is one of the dialogue that is held or, while recomputes are
running, one of the procedure of the innermost of them. So where dialogues and procedures are known
to ask only requests of some kind, whatever they are replied, no others occur in their runs. -/

namespace Memograph

variable {π : Type}

/-! ### Dialogues that ask only some requests -/

/-- Whether a footprint says that a request may be asked. -/
def Footprint.Allows (footprint : Footprint) : Request π → Prop
  | .read name _ => name ∈ footprint.reads
  | .assign name _ => name ∈ footprint.assigns
  | .store name _ => name ∈ footprint.stores
  | _ => False

namespace Dialogue

variable {α β : Type} {P P' : Request π → Prop}

/-- Whether a dialogue asks only requests with a property, whatever it is replied. -/
def Confined (P : Request π → Prop) : Dialogue π α → Prop
  | .done _ => True
  | .ask request next => P request ∧ ∀ reply, Confined P (next reply)

theorem Confined.bind {d : Dialogue π α} {f : α → Dialogue π β} (h : d.Confined P)
    (hf : ∀ result, (f result).Confined P) : (d.bind f).Confined P := by
  induction d with
  | done result => exact hf result
  | ask request next ih => exact ⟨h.1, fun reply => ih reply (h.2 reply)⟩

theorem Confined.imp {d : Dialogue π α} (h : d.Confined P)
    (himp : ∀ request, P request → P' request) : d.Confined P' := by
  induction d with
  | done result => trivial
  | ask request next ih => exact ⟨himp request h.1, fun reply => ih reply (h.2 reply)⟩

theorem confined_request {request : Request π} (h : P request) :
    (Dialogue.request request).Confined P :=
  ⟨h, fun _ => trivial⟩

/-- A dialogue inside of a footprint asks only what the footprint says. -/
theorem Follows.confined {footprint : Footprint} {post : List QualifiedName → α → Prop}
    {asked : List QualifiedName} {d : Dialogue π (Except Error α)}
    (h : d.Follows footprint post asked) : d.Confined footprint.Allows := by
  induction h with
  | failed cause => trivial
  | done hpost => trivial
  | read hname hfailed hnext ih =>
      refine ⟨hname, fun reply => ?_⟩
      cases reply with
      | error cause =>
          rw [hfailed]
          trivial
      | ok value => exact ih value
  | assign hname hrest ih => exact ⟨hname, fun _ => ih⟩
  | store hname hrest ih => exact ⟨hname, fun _ => ih⟩

end Dialogue

/-! ### Histories -/

namespace Environment

variable {α : Type} {P : Request π → Prop} {Q : π → Request π → Prop} {env middle : Environment π}
  {first rest : List (Event π)}

/-- Whether every request in some events has a property `P`, if it is asked with the stack as it is
in the beginning, and otherwise one that the procedure of the innermost recompute gives it. -/
def Attributed (P : Request π → Prop) (Q : π → Request π → Prop) (env : Environment π)
    (events : List (Event π)) : Prop :=
  ∀ before request after, events = before ++ .asked request :: after →
    (env.after before).stack = env.stack ∧ P request ∨
    ∃ launch, .began launch ∈ before ∧ (env.after before).stack.head? = some launch.frame ∧
      Q launch.dependency.procedure request

theorem attributed_nil : env.Attributed P Q [] := by
  intro before request after hsplit
  cases before <;> cases hsplit

theorem attributed_asked {request : Request π} (h : P request) :
    env.Attributed P Q [.asked request] := by
  intro before other after hsplit
  cases before with
  | nil =>
      cases hsplit
      exact Or.inl ⟨rfl, h⟩
  | cons event before =>
      obtain ⟨-, hrest⟩ := List.cons.inj hsplit
      cases before <;> cases hrest

theorem attributed_ended {launch : Launch π} {result : Except Error Value} :
    env.Attributed P Q [.ended launch result] := by
  intro before request after hsplit
  cases before with
  | nil => cases hsplit
  | cons event before =>
      obtain ⟨-, hrest⟩ := List.cons.inj hsplit
      cases before <;> cases hrest

/-- What is asked right inside of a recompute is asked by its procedure. -/
theorem attributed_began {launch : Launch π}
    (h : (launch.start env).Attributed (Q launch.dependency.procedure) Q rest) :
    env.Attributed P Q (.began launch :: rest) := by
  intro before request after hsplit
  cases before with
  | nil => cases hsplit
  | cons event before =>
      obtain ⟨rfl, hrest⟩ := List.cons.inj hsplit
      refine Or.inr ?_
      rcases h before request after hrest with ⟨hstack, hrequest⟩ | ⟨nested, hnested, hcharge⟩
      · refine ⟨launch, List.mem_cons_self, ?_, hrequest⟩
        change ((launch.start env).after before).stack.head? = _
        rw [hstack]
        rfl
      · exact ⟨nested, List.mem_cons_of_mem _ hnested, hcharge⟩

theorem Attributed.append (h : env.Attributed P Q first) (hpath : Path env first middle)
    (hstack : middle.stack = env.stack) (hrest : middle.Attributed P Q rest) :
    env.Attributed P Q (first ++ rest) := by
  -- A request behind the first part is asked in the environment that the first part leads to.
  have hbehind : ∀ before request after, rest = before ++ .asked request :: after →
      (env.after (first ++ before)).stack = env.stack ∧ P request ∨
      ∃ launch, .began launch ∈ first ++ before ∧
        (env.after (first ++ before)).stack.head? = some launch.frame ∧
          Q launch.dependency.procedure request := by
    intro before request after hsplit
    rw [after_append, ← hpath.eq_after, ← hstack]
    refine (hrest before request after hsplit).imp_right ?_
    rintro ⟨launch, hlaunch, hcharge⟩
    exact ⟨launch, List.mem_append_right _ hlaunch, hcharge⟩
  intro before request after hsplit
  rcases List.append_eq_append_iff.mp hsplit with
    ⟨shared, rfl, hlater⟩ | ⟨shared, hfirst, hlater⟩
  · exact hbehind shared request after hlater
  · cases shared with
    | nil =>
        rw [List.append_nil] at hfirst
        subst hfirst
        have hasked := hbehind [] request after hlater.symm
        rwa [List.append_nil] at hasked
    | cons event shared =>
        obtain ⟨rfl, -⟩ := List.cons.inj hlater
        exact h before request shared hfirst

section Tracing

variable {inner : Dialogue π (Except Error Value) → Environment π → List (Event π)}
  {run : Runner π (Except Error Value)} {meaning : Meaning π}

/-- The requests of a recompute are those of its procedure or of a recompute inside of it. -/
theorem attributed_recompute
    (htraces : ∀ (d : Dialogue π (Except Error Value)) (env : Environment π),
      env.Traces (inner d env) (run d env))
    (hmeaning : ∀ procedure slot, (meaning procedure slot).Confined (Q procedure))
    (hinner : ∀ (P : Request π → Prop) (d : Dialogue π (Except Error Value))
      (env : Environment π), d.Confined P → env.Attributed P Q (inner d env))
    (launch : Launch π) (env : Environment π) :
    env.Attributed P Q (recompute inner run meaning launch env) := by
  have hprocedure :=
    hinner _ _ (launch.start env) (hmeaning launch.dependency.procedure launch.slot)
  have htrace := htraces (launch.dialogue meaning) (launch.start env)
  refine attributed_began ?_
  cases hrun : run (launch.dialogue meaning) (launch.start env) with
  | none =>
      rw [List.append_nil]
      exact hprocedure
  | some outcome =>
      exact hprocedure.append (htrace.path _ _ hrun) (htrace.stack _ _ hrun) attributed_ended

/-- A request is asked itself, or those are asked that the recompute asks which it starts. -/
theorem attributed_request
    (htraces : ∀ (d : Dialogue π (Except Error Value)) (env : Environment π),
      env.Traces (inner d env) (run d env))
    (hmeaning : ∀ procedure slot, (meaning procedure slot).Confined (Q procedure))
    (hinner : ∀ (P : Request π → Prop) (d : Dialogue π (Except Error Value))
      (env : Environment π), d.Confined P → env.Attributed P Q (inner d env))
    {request : Request π} (hrequest : P request) (env : Environment π) :
    env.Attributed P Q
      (match request.launch? env with
        | none => [.asked request]
        | some launch => recompute inner run meaning launch env) := by
  cases request.launch? env with
  | none => exact attributed_asked hrequest
  | some launch => exact attributed_recompute htraces hmeaning hinner launch env

theorem attributed_events
    (htraces : ∀ (d : Dialogue π (Except Error Value)) (env : Environment π),
      env.Traces (inner d env) (run d env))
    (hmeaning : ∀ procedure slot, (meaning procedure slot).Confined (Q procedure))
    (hinner : ∀ (P : Request π → Prop) (d : Dialogue π (Except Error Value))
      (env : Environment π), d.Confined P → env.Attributed P Q (inner d env))
    {d : Dialogue π α} (hd : d.Confined P) (env : Environment π) :
    env.Attributed P Q (events inner run meaning d env) := by
  induction d generalizing env with
  | done result => exact attributed_nil
  | ask request next ih =>
      have hfirst := attributed_request htraces hmeaning hinner hd.1 env
      have htrace := traces_request meaning htraces request env
      rw [events]
      cases hrespond : respond run meaning request env with
      | none =>
          rw [List.append_nil]
          exact hfirst
      | some reaction =>
          exact hfirst.append (htrace.path _ _ hrespond) (htrace.stack _ _ hrespond)
            (ih reaction.1 (hd.2 reaction.1) reaction.2)

end Tracing

theorem attributed_innerHistory {meaning : Meaning π}
    (hmeaning : ∀ procedure slot, (meaning procedure slot).Confined (Q procedure)) (depth : Nat)
    (P : Request π → Prop) (d : Dialogue π (Except Error Value)) (env : Environment π)
    (hd : d.Confined P) : env.Attributed P Q (innerHistory meaning depth d env) := by
  induction depth generalizing P d env with
  | zero => exact attributed_nil
  | succ depth ih =>
      exact attributed_events (traces_innerHistory meaning depth) hmeaning ih hd env

/-- Every request of a history is one of the dialogue that is held or one of the procedure of the
innermost recompute. -/
theorem attributed_history {meaning : Meaning π}
    (hmeaning : ∀ procedure slot, (meaning procedure slot).Confined (Q procedure)) (depth : Nat)
    {d : Dialogue π α} (hd : d.Confined P) (env : Environment π) :
    env.Attributed P Q (history meaning depth d env) :=
  attributed_events (traces_innerHistory meaning depth) hmeaning
    (attributed_innerHistory hmeaning depth) hd env

end Environment
end Memograph
