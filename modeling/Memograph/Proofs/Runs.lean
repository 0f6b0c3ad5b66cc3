import Memograph.Proofs.Attribution
import Memograph.Proofs.Evolution

/-! What lasts through a run. A relation that holds along requests of some kind and into every
recompute, and along a recompute as a whole if it holds along the run of its procedure, holds
between where a run begins and all that it comes by, as long as only such requests are asked. A run
that is cut short has recomputes nested as deep as they may be, and one that has a result has the
same result if they may nest deeper. -/

namespace Memograph.Environment

variable {π α : Type} {meaning : Meaning π}

/-! ### Relations that last -/

/-- Whether a relation holds along all requests with a property that start no recompute, into each
recompute, and along it as a whole if it holds along the run of its procedure. -/
structure Lasting (P : Request π → Prop) (R : Environment π → Environment π → Prop) : Prop where
  refl : ∀ env, R env env
  trans : ∀ {env middle after}, R env middle → R middle after → R env after
  asked : ∀ {env} {request : Request π}, P request → request.launch? env = none →
    R env (request.effect env)
  began : ∀ {env} {launch : Launch π}, launch.Enabled env → R env (launch.start env)
  ended : ∀ {env middle} {launch : Launch π} (result : Except Error Value), launch.Enabled env →
    R (launch.start env) middle → middle.stack = launch.frame :: env.stack →
      R env (launch.finish middle result)

/-- Whether a relation holds between an environment and all that some events come by. -/
def Lasts (R : Environment π → Environment π → Prop) (env : Environment π)
    (events : List (Event π)) : Prop :=
  ∀ before, before <+: events → R env (env.after before)

/-- Whether the recomputes that begin in some events ask only requests with a property, where a
relation holds up to their beginning. -/
def Confines (meaning : Meaning π) (P : Request π → Prop)
    (R : Environment π → Environment π → Prop) (env : Environment π) (events : List (Event π)) :
    Prop :=
  ∀ before launch, before ++ [.began launch] <+: events → R env (env.after before) →
    (launch.dialogue meaning).Confined P

variable {P : Request π → Prop} {R : Environment π → Environment π → Prop} {env : Environment π}
  {first rest : List (Event π)}

theorem Confines.left (h : env.Confines meaning P R (first ++ rest)) :
    env.Confines meaning P R first :=
  fun before launch hbegins => h before launch (hbegins.trans (List.prefix_append _ _))

theorem Confines.right (h : env.Confines meaning P R (first ++ rest)) (hR : Lasting P R)
    (hfirst : R env (env.after first)) : (env.after first).Confines meaning P R rest := by
  intro before launch hbegins hbefore
  refine h (first ++ before) launch ?_ ?_
  · rw [List.append_assoc]
    exact (List.prefix_append_right_inj first).mpr hbegins
  · rw [after_append]
    exact hR.trans hfirst hbefore

theorem Confines.tail {event : Event π} (h : env.Confines meaning P R (event :: rest))
    (hR : Lasting P R) (hevent : R env (event.apply env)) :
    (event.apply env).Confines meaning P R rest :=
  Confines.right (show env.Confines meaning P R ([event] ++ rest) from h) hR hevent

theorem lasts_nil (hR : Lasting P R) (env : Environment π) : env.Lasts R [] := by
  intro before hbefore
  rw [List.prefix_nil.mp hbefore]
  exact hR.refl env

theorem lasts_singleton (hR : Lasting P R) {event : Event π} (h : R env (event.apply env)) :
    env.Lasts R [event] := by
  intro before hbefore
  rcases List.prefix_concat_iff.mp (show before <+: [] ++ [event] from hbefore) with rfl | hnil
  · exact h
  · exact lasts_nil hR env before hnil

theorem Lasts.append (hR : Lasting P R) (h : env.Lasts R first)
    (hrest : (env.after first).Lasts R rest) : env.Lasts R (first ++ rest) := by
  intro before hbefore
  rcases List.prefix_or_prefix_of_prefix hbefore (List.prefix_append first rest) with
    hshort | ⟨later, rfl⟩
  · exact h before hshort
  · rw [after_append]
    exact hR.trans (h first (List.prefix_refl first))
      (hrest later ((List.prefix_append_right_inj first).mp hbefore))

section Tracing

variable {inner : Dialogue π (Except Error Value) → Environment π → List (Event π)}
  {run : Runner π (Except Error Value)}
  (htraces : ∀ (d : Dialogue π (Except Error Value)) (env : Environment π),
    env.Traces (inner d env) (run d env))

include htraces

theorem lasts_recompute (hR : Lasting P R)
    (hinner : ∀ (d : Dialogue π (Except Error Value)) (env : Environment π), d.Confined P →
      env.Confines meaning P R (inner d env) → env.Lasts R (inner d env))
    {launch : Launch π} (hlaunch : launch.Enabled env)
    (h : env.Confines meaning P R (recompute inner run meaning launch env)) :
    env.Lasts R (recompute inner run meaning launch env) := by
  have hbegan : R env (launch.start env) := hR.began hlaunch
  have hconfined : (launch.dialogue meaning).Confined P :=
    h [] launch ⟨_, rfl⟩ (hR.refl env)
  have hprocedure : (launch.start env).Lasts R
      (inner (launch.dialogue meaning) (launch.start env)) :=
    hinner _ _ hconfined (Confines.tail h hR hbegan).left
  have hopened : env.Lasts R
      (.began launch :: inner (launch.dialogue meaning) (launch.start env)) :=
    Lasts.append hR (lasts_singleton hR hbegan) hprocedure
  have htrace := htraces (launch.dialogue meaning) (launch.start env)
  unfold recompute
  cases hrun : run (launch.dialogue meaning) (launch.start env) with
  | none =>
      rw [List.append_nil]
      exact hopened
  | some outcome =>
      intro before hbefore
      rw [← List.cons_append] at hbefore
      rcases List.prefix_concat_iff.mp hbefore with rfl | hshort
      · have hend := hprocedure _ (List.prefix_refl _)
        have hstack := htrace.stack _ _ hrun
        rw [(htrace.path _ _ hrun).eq_after] at hstack
        rw [after_append]
        exact hR.ended outcome.1 hlaunch hend hstack
      · exact hopened before hshort

theorem lasts_request (hR : Lasting P R)
    (hinner : ∀ (d : Dialogue π (Except Error Value)) (env : Environment π), d.Confined P →
      env.Confines meaning P R (inner d env) → env.Lasts R (inner d env))
    {request : Request π} (hrequest : P request)
    (h : env.Confines meaning P R
      (match request.launch? env with
        | none => [.asked request]
        | some launch => recompute inner run meaning launch env)) :
    env.Lasts R
      (match request.launch? env with
        | none => [.asked request]
        | some launch => recompute inner run meaning launch env) := by
  cases hlaunch : request.launch? env with
  | none => exact lasts_singleton hR (hR.asked hrequest hlaunch)
  | some launch =>
      rw [hlaunch] at h
      exact lasts_recompute htraces hR hinner (enabled_of_launch? hlaunch) h

theorem lasts_events (hR : Lasting P R)
    (hinner : ∀ (d : Dialogue π (Except Error Value)) (env : Environment π), d.Confined P →
      env.Confines meaning P R (inner d env) → env.Lasts R (inner d env))
    {d : Dialogue π α} (hd : d.Confined P)
    (h : env.Confines meaning P R (events inner run meaning d env)) :
    env.Lasts R (events inner run meaning d env) := by
  induction d generalizing env with
  | done result => exact lasts_nil hR env
  | ask request next ih =>
      rw [events] at h ⊢
      have hfirst := lasts_request htraces hR hinner hd.1 h.left
      have htrace := traces_request meaning htraces request env
      refine hfirst.append hR ?_
      have hrest := h.right hR (hfirst _ (List.prefix_refl _))
      cases hrespond : respond run meaning request env with
      | none => exact lasts_nil hR _
      | some reaction =>
          rw [hrespond] at hrest
          rw [← (htrace.path _ _ hrespond).eq_after] at hrest ⊢
          exact ih reaction.1 (hd.2 reaction.1) hrest

end Tracing

theorem lasts_innerHistory (hR : Lasting P R) (depth : Nat) (d : Dialogue π (Except Error Value))
    (env : Environment π) (hd : d.Confined P)
    (h : env.Confines meaning P R (innerHistory meaning depth d env)) :
    env.Lasts R (innerHistory meaning depth d env) := by
  induction depth generalizing d env with
  | zero => exact lasts_nil hR env
  | succ depth ih => exact lasts_events (traces_innerHistory meaning depth) hR ih hd h

/-- A lasting relation holds between where a run begins and all that it comes by, if the run and its
recomputes ask only requests that keep it. -/
theorem lasts_history (hR : Lasting P R) (depth : Nat) {d : Dialogue π α} (hd : d.Confined P)
    (h : env.Confines meaning P R (history meaning depth d env)) :
    env.Lasts R (history meaning depth d env) :=
  lasts_events (traces_innerHistory meaning depth) hR (lasts_innerHistory hR depth) hd h

theorem enabled_of_history {depth : Nat} {d : Dialogue π α} {before : List (Event π)}
    {event : Event π} (h : before ++ [event] <+: history meaning depth d env) :
    event.Enabled (env.after before) := by
  obtain ⟨middle, hbefore, hlast⟩ := (path_of_history h).split
  rw [hbefore.eq_after] at hlast
  cases hlast with
  | cons henabled _ => exact henabled

/-- Where nothing is registered on the way, recomputes run what was registered in the beginning. -/
theorem confines_history (hR : ∀ there, R env there → env.SameDependencies there)
    (h : env.AllRegistered fun _ registration => ∀ slot,
      (meaning registration.procedure slot).Confined P) (depth : Nat) (d : Dialogue π α) :
    env.Confines meaning P R (history meaning depth d env) := by
  intro before launch hbefore hlasts
  exact (hR _ hlasts).allRegistered h _ _ (enabled_of_history hbefore).registered launch.slot

/-! ### Runs that are cut short -/

theorem stack_events_of_none
    {inner : Dialogue π (Except Error Value) → Environment π → List (Event π)}
    {run : Runner π (Except Error Value)}
    (htraces : ∀ (d : Dialogue π (Except Error Value)) (env : Environment π),
      env.Traces (inner d env) (run d env))
    {deep : Nat} (hinner : ∀ (d : Dialogue π (Except Error Value)) (env : Environment π),
      run d env = none → (env.after (inner d env)).stack.length = env.stack.length + deep)
    (d : Dialogue π α) (env : Environment π) (h : converse (respond run meaning) d env = none) :
    (env.after (events inner run meaning d env)).stack.length = env.stack.length + (deep + 1) := by
  induction d generalizing env with
  | done result => cases h
  | ask request next ih =>
      have htrace := traces_request meaning htraces request env
      rw [events, after_append]
      rw [converse] at h
      cases hrespond : respond run meaning request env with
      | some reaction =>
          rw [hrespond] at h
          rw [← (htrace.path _ _ hrespond).eq_after]
          rw [← htrace.stack _ _ hrespond]
          exact ih reaction.1 reaction.2 h
      | none =>
          cases hlaunch : request.launch? env with
          | none =>
              obtain ⟨reply, hreply⟩ := exists_respond_of_launch?_eq_none meaning hlaunch
              rw [hreply] at hrespond
              cases hrespond
          | some launch =>
              obtain ⟨reply, hreply⟩ := exists_respond_of_launch? meaning hlaunch
              rw [hreply, Option.map_eq_none_iff] at hrespond
              have hdeep := hinner _ _ hrespond
              dsimp only [recompute]
              rw [hrespond, List.append_nil]
              change ((launch.start env).after _).stack.length = _
              rw [hdeep]
              change env.stack.length + 1 + deep = _
              omega

theorem stack_innerHistory_of_none (depth : Nat) (d : Dialogue π (Except Error Value))
    (env : Environment π) (h : nested meaning depth d env = none) :
    (env.after (innerHistory meaning depth d env)).stack.length = env.stack.length + depth := by
  induction depth generalizing d env with
  | zero => rfl
  | succ depth ih =>
      rw [nested, runWithin_eq_converse] at h
      exact stack_events_of_none (traces_innerHistory meaning depth) ih d env h

/-- A run without a result has begun one more recompute than may nest, and ended none of them. -/
theorem stack_history_of_none (depth : Nat) (d : Dialogue π α) (env : Environment π)
    (h : runWithin meaning depth d env = none) :
    (env.after (history meaning depth d env)).stack.length = env.stack.length + (depth + 1) := by
  rw [runWithin_eq_converse] at h
  exact stack_events_of_none (traces_innerHistory meaning depth)
    (stack_innerHistory_of_none depth) d env h

/-! ### Runs that may nest deeper -/

theorem converse_mono {run run' : Runner π (Except Error Value)}
    (hrun : ∀ d env outcome, run d env = some outcome → run' d env = some outcome)
    {d : Dialogue π α} {outcome : α × Environment π}
    (h : converse (respond run meaning) d env = some outcome) :
    converse (respond run' meaning) d env = some outcome := by
  induction d generalizing env with
  | done result => exact h
  | ask request next ih =>
      obtain ⟨reply, middle, hrespond, hrest⟩ := converse_ask_eq_some h
      have hrespond' : respond run' meaning request env = some (reply, middle) := by
        cases hlaunch : request.launch? env with
        | none =>
            obtain ⟨_, hreply⟩ := exists_respond_of_launch?_eq_none meaning hlaunch
            rw [hreply] at hrespond ⊢
            exact hrespond
        | some launch =>
            obtain ⟨_, hreply⟩ := exists_respond_of_launch? meaning hlaunch
            rw [hreply, Option.map_eq_some_iff] at hrespond
            obtain ⟨whole, hwhole, heq⟩ := hrespond
            rw [hreply, hrun _ _ _ hwhole, Option.map_some, heq]
      rw [converse, hrespond']
      exact ih reply hrest

/-- A run that has a result has it also where recomputes may nest deeper. -/
theorem runWithin_mono {depth depth' : Nat} (hle : depth ≤ depth') {d : Dialogue π α}
    {outcome : α × Environment π} (h : runWithin meaning depth d env = some outcome) :
    runWithin meaning depth' d env = some outcome := by
  induction depth generalizing depth' α env with
  | zero =>
      cases depth' with
      | zero => exact h
      | succ depth' =>
          refine converse_mono (fun _ _ _ hnone => ?_) h
          cases hnone
  | succ depth ih =>
      cases depth' with
      | zero => cases hle
      | succ depth' =>
          exact converse_mono (fun _ _ _ => ih (Nat.le_of_succ_le_succ hle)) h

/-- A run that has a result has it also as a recompute, where there is room for one more. -/
theorem nested_of_runWithin {depth depth' : Nat} (hlt : depth < depth')
    {d : Dialogue π (Except Error Value)} {outcome : Except Error Value × Environment π}
    (h : runWithin meaning depth d env = some outcome) :
    nested meaning depth' d env = some outcome := by
  cases depth' with
  | zero => cases hlt
  | succ depth' => exact runWithin_mono (Nat.le_of_lt_succ hlt) h

end Memograph.Environment
