import Memograph.Proofs.Attribution
import Memograph.Proofs.Memoization
import Memograph.Proofs.Sessions

/-! Values of lapped recomputes. Epochs are compared by their low sixty-four bits. So a recompute
that cascades overtake a positive multiple of `2 ^ 64` times ends as if none had overtaken it, and
its value stays until something unsettles the name. A session that has fewer moments than that has
no such value. -/

namespace Memograph

variable {π : Type}

namespace Launch

variable (launch : Launch π) (meaning : Meaning π) (depth : Nat) (env : Environment π)

/-- The events of a recompute that comes to a result. -/
def events (result : Except Error Value) : List (Event π) :=
  .began launch :: (launch.history meaning depth env ++ [.ended launch result])

/-- Whether a recompute leaves a value in its slot though cascades have overtaken it, because their
number is a multiple of `2 ^ 64`. -/
structure Laps (value : Value) : Prop where
  overtaken : 0 < launch.visits meaning depth env
  rounded : launch.visits meaning depth env % UInt64.size = 0
  kept : (env.after (launch.events meaning depth env (.ok value))).statusOf launch.name
    launch.slot = .valid value

end Launch

namespace Environment

/-- Whether a slot has a value from a recompute that was lapped in some moments. Since then no
cascade has listed the name, and the name has not been registered anew. -/
def Lapped (meaning : Meaning π) (first : Environment π) (moments : List (Moment π))
    (name : QualifiedName) (slot : Option Int64) (value : Value) : Prop :=
  ∃ (before : List (Moment π)) (launch : Launch π) (depth : Nat) (since : List (Moment π)),
    moments = before ++
      ((launch.events meaning depth (first.through before) (.ok value)).map .happens ++ since) ∧
    launch.name = name ∧ launch.slot = slot ∧
    launch.Laps meaning depth (first.through before) value ∧
    ((first.through before).after
      (launch.events meaning depth (first.through before) (.ok value))).spares name since = true

variable {meaning : Meaning π} {first env : Environment π} {passed rest : List (Moment π)}
  {name : QualifiedName} {slot : Option Int64} {value : Value}

/-- A recompute that its dependency comes out of in another epoch, with the same low bits, laps. -/
theorem Lifecycle.laps {launch : Launch π} {depth : Nat} {middle : Environment π}
    {later : Dependency π} (h : env.Lifecycle) (henabled : launch.Enabled env)
    (hrun : runWithin meaning depth (launch.dialogue meaning) (launch.start env) =
      some (.ok value, middle))
    (hlater : middle.dependencies.get? launch.name = some later)
    (hserial : later.serial = launch.dependency.serial)
    (hgrew : launch.dependency.epoch < later.epoch)
    (hkept : Dependency.sameEpoch later.epoch launch.dependency.epoch = true) :
    launch.Laps meaning depth env value := by
  have hpath : Path (launch.start env) (launch.history meaning depth env) middle :=
    (traces_history meaning depth _ _).path (.ok value) middle hrun
  have hepoch : later.epoch = launch.dependency.epoch + launch.visits meaning depth env :=
    h.epoch_of_recompute henabled hpath (mem_held_of_get? hlater) hserial
  constructor
  case overtaken => omega
  case rounded =>
    rw [hepoch] at hkept
    exact (sameEpoch_add_iff _ _).mp hkept
  case kept =>
    have hafter : env.after (launch.events meaning depth env (.ok value)) =
        launch.finish middle (.ok value) := by
      change (launch.start env).after (launch.history meaning depth env ++ _) = _
      rw [after_append, ← hpath.eq_after]
      rfl
    rw [hafter, Launch.finish, ← hserial, statusOf_finish hlater, if_pos ⟨rfl, rfl⟩]
    dsimp only
    rw [if_pos hkept]

/-- Neither the start nor the end of a recompute unsettles any name. -/
theorem spares_began (env : Environment π) (name : QualifiedName) (launch : Launch π) :
    env.spares name [.happens (.began launch)] = true := rfl

theorem spares_ended (env : Environment π) (name : QualifiedName) (launch : Launch π)
    (result : Except Error Value) : env.spares name [.happens (.ended launch result)] = true := rfl

/-- A value stays lapped through moments that spare its name. -/
theorem Lapped.append (h : first.Lapped meaning passed name slot value)
    (hspares : (first.through passed).spares name rest = true) :
    first.Lapped meaning (passed ++ rest) name slot value := by
  obtain ⟨before, launch, depth, since, rfl, hname, hslot, hlaps, hsince⟩ := h
  rw [through_append, through_append, through_happens] at hspares
  refine ⟨before, launch, depth, since ++ rest, ?_, hname, hslot, hlaps, ?_⟩
  · rw [List.append_assoc, List.append_assoc]
  · rw [spares_append, hsince, hspares]
    rfl

/-- It takes `2 ^ 64` moments to lap a recompute. -/
theorem Lapped.size_le_length (h : first.Lapped meaning passed name slot value) :
    UInt64.size ≤ passed.length := by
  obtain ⟨before, launch, depth, since, rfl, -, -, hlaps, -⟩ := h
  have hsize := Nat.le_of_dvd hlaps.overtaken (Nat.dvd_of_mod_eq_zero hlaps.rounded)
  have hlength : launch.visits meaning depth (first.through before) ≤
      (launch.history meaning depth (first.through before)).length := visits_le_length _ _ _
  simp only [Launch.events, List.length_append, List.length_map, List.length_cons]
  omega

/-! ### Moments without recomputes -/

/-- What has a value after a request is replied to has had it before, and has been spared. -/
theorem spared_of_effect {request : Request π}
    (h : (request.effect env).statusOf name slot = .valid value) :
    env.statusOf name slot = .valid value ∧
      (Moment.happens (.asked request)).unsettles name env = false := by
  have hprepared : (request.prepare env).statusOf name slot = .valid value ∧
      name ∉ request.listed env := by
    rw [listed_eq]
    rw [Request.effect_eq] at h
    cases hcascade : request.cascade? env with
    | none =>
        rw [hcascade] at h
        exact ⟨h, List.not_mem_nil⟩
    | some source =>
        rw [hcascade] at h
        obtain ⟨hapart, hbefore⟩ := valid_of_notify _ h
        exact ⟨hbefore, fun hlisted => hapart ((mem_notify_iff _ source name).mp hlisted).2⟩
  obtain ⟨hvalid, hlisted⟩ := hprepared
  have hkept : env.statusOf name slot = .valid value ∧ request.installs? env ≠ some name := by
    rcases request.prepare_cases env with
      ⟨hnone, hsame, -⟩ | ⟨other, registration, hother, hprepare⟩
    · have heq : (request.prepare env).statusOf name = env.statusOf name :=
        statusOf_congr (by rw [hsame])
      exact ⟨heq ▸ hvalid, by rw [hnone]; exact nofun⟩
    · have hinstalls : env.Installs (request.prepare env) other registration := by
        rcases hprepare with ⟨-, heq⟩ | ⟨old, -, heq⟩
        · exact heq ▸ installs_enroll env other registration
        · exact heq ▸ installs_supersede env other old registration
      obtain ⟨hne, hbefore⟩ := hinstalls.of_statusOf_eq_valid hvalid
      exact ⟨hbefore, by rw [hother]; exact fun heq => hne (Option.some.inj heq).symm⟩
  refine ⟨hkept.1, decide_eq_false ?_⟩
  rw [not_or]
  exact ⟨hlisted, hkept.2⟩

/-- What has a value after requests that are replied to at once has been spared by all of them. -/
theorem spared_of_asked {events : List (Event π)}
    (hevents : ∀ event ∈ events, ∃ request, event = .asked request)
    (h : (env.after events).statusOf name slot = .valid value) :
    env.statusOf name slot = .valid value ∧ env.spares name (events.map .happens) = true := by
  induction events generalizing env with
  | nil => exact ⟨h, rfl⟩
  | cons event events ih =>
      obtain ⟨request, rfl⟩ := hevents event List.mem_cons_self
      obtain ⟨hlater, hspares⟩ := ih (fun event hmem => hevents event (.tail _ hmem)) h
      obtain ⟨hbefore, hsettled⟩ := spared_of_effect hlater
      refine ⟨hbefore, ?_⟩
      rw [List.map_cons, spares, hsettled]
      exact hspares

/-- Where a dialogue asks nothing that starts a recompute, it is replied to at once all along. -/
theorem exists_asked_of_confined {α : Type} {d : Dialogue π α}
    {inner : Dialogue π (Except Error Value) → Environment π → List (Event π)}
    {run : Runner π (Except Error Value)}
    (hd : d.Confined fun request => ∀ env : Environment π, request.launch? env = none) :
    ∀ event ∈ events inner run meaning d env, ∃ request, event = .asked request := by
  induction d generalizing env with
  | done result => exact fun _ hmem => absurd hmem List.not_mem_nil
  | ask request next ih =>
      intro event hmem
      rw [events, hd.1 env, List.mem_append] at hmem
      rcases hmem with hasked | hlater
      · exact ⟨request, List.eq_of_mem_singleton hasked⟩
      · cases hrespond : respond run meaning request env with
        | none =>
            rw [hrespond] at hlater
            exact absurd hlater List.not_mem_nil
        | some reaction =>
            rw [hrespond] at hlater
            exact ih reaction.1 (hd.2 reaction.1) event hlater

end Environment

/-! ### Steps without recomputes -/

open Dialogue in
/-- A permitted step that is neither a read nor a top-level evaluation starts no recompute. -/
theorem Step.confined_of_permitted {allowed : Definition → Bool} {env : Environment Procedure}
    {step : Step} (hstep : step.permitted allowed env = true) {context : ContextPath}
    (hquery : step.query (π := Procedure) context = none) (slot : Int64) :
    (step.dialogue slot).Confined fun request =>
      ∀ env : Environment Procedure, request.launch? env = none := by
  have hresolve : ∀ name, (Exchange.resolve name).Confined fun request =>
      ∀ env : Environment Procedure, request.launch? env = none :=
    Exchange.confined_resolve fun _ => rfl
  cases step with
  | enter context => exact (confined_request fun _ => rfl).bind fun _ => trivial
  | assign name value =>
      exact (hresolve name).bind fun _ => (confined_request fun _ => rfl).bind fun _ => trivial
  | notify name =>
      exact (hresolve name).bind fun _ => (confined_request fun _ => rfl).bind fun _ => trivial
  | invalidate name =>
      refine (hresolve name).bind fun _ => (confined_request fun _ => rfl).bind fun env => ?_
      split
      · exact (confined_request fun _ => rfl).bind fun _ => trivial
      · trivial
  | define definition context =>
      refine (Exchange.confined_contextOrActive (fun _ => rfl) context).bind fun context => ?_
      cases definition.compile context with
      | error cause => trivial
      | ok compiled =>
          refine (confined_request fun _ => rfl).bind fun result => ?_
          cases result <;> trivial
  | read name index => cases hquery
  | eval expr => cases hquery
  | _ => cases hstep

end Memograph
