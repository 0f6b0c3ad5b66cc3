import Memograph.Proofs.Held
import Memograph.Proofs.Nesting

/-! The life of a slot. A slot holds a value exactly while it is marked valid, and it is marked as
being recomputed exactly while a frame of its own is on the stack, whether or not its dependency
still has its name. Every event of a run keeps this, so it holds in between any two of them, and
when a run is over nothing is being recomputed. -/

namespace Memograph

variable {π : Type}

/-! ### Slots -/

/-- Whether a dependency has no slots but those of its shape, and each holds a value exactly if it
is marked valid. An itemwise dependency has no other slots than valid ones and those that are being
recomputed. -/
structure Dependency.Sound (dependency : Dependency π) : Prop where
  fits : ∀ index slot, dependency.slots.get? index = some slot → dependency.shape.Fits index
  scalar : dependency.shape = .scalar →
    ((dependency.slotAt none).cached.isSome = true ↔ (dependency.slotAt none).mark = .valid)
  itemwise : dependency.shape = .itemwise → ∀ index slot,
    dependency.slots.get? index = some slot →
      slot.mark = .valid ∧ slot.cached.isSome = true ∨ slot.mark = .evaluating ∧ slot.cached = none

/-- Whether a slot of a dependency of some shape holds a value exactly if it is marked valid. -/
def Slot.SoundIn (shape : Shape) (slot : Slot) : Prop :=
  (slot.cached.isSome = true ↔ slot.mark = .valid) ∧
    (shape = .itemwise → slot.mark ≠ .uninitialized)

namespace Dependency

variable {dependency : Dependency π}

theorem slotAt_of_get? {index : Option Int64} {slot : Slot}
    (h : dependency.slots.get? index = some slot) : dependency.slotAt index = slot := by
  rw [slotAt, h, Option.getD_some]

theorem sound_iff (dependency : Dependency π) :
    dependency.Sound ↔ ∀ index slot, dependency.slots.get? index = some slot →
      dependency.shape.Fits index ∧ slot.SoundIn dependency.shape := by
  constructor
  · intro h index slot hslot
    refine ⟨h.fits index slot hslot, ?_⟩
    cases hshape : dependency.shape with
    | scalar =>
        have hindex := h.fits index slot hslot
        rw [hshape] at hindex
        cases hindex
        have hscalar := h.scalar hshape
        rw [slotAt_of_get? hslot] at hscalar
        exact ⟨hscalar, nofun⟩
    | itemwise =>
        rcases h.itemwise hshape index slot hslot with ⟨hmark, hcached⟩ | ⟨hmark, hcached⟩
        · exact ⟨iff_of_true hcached hmark, fun _ => by rw [hmark]; exact nofun⟩
        · exact ⟨by simp [hmark, hcached], fun _ => by rw [hmark]; exact nofun⟩
  · intro h
    refine ⟨fun index slot hslot => (h index slot hslot).1, fun hshape => ?_,
      fun hshape index slot hslot => ?_⟩
    · cases hslot : dependency.slots.get? none with
      | none => simp [slotAt, hslot, Slot.fresh]
      | some slot =>
          rw [slotAt_of_get? hslot]
          exact (h none slot hslot).2.1
    · obtain ⟨hvalid, hmark⟩ := (h index slot hslot).2
      cases hfound : slot.mark with
      | uninitialized => exact absurd hfound (hmark hshape)
      | evaluating =>
          rw [hfound] at hvalid
          refine Or.inr ⟨rfl, ?_⟩
          simpa using hvalid
      | valid => exact Or.inl ⟨rfl, hvalid.mpr hfound⟩

theorem sound_of_empty (h : dependency.slots = ∅) : dependency.Sound := by
  rw [sound_iff]
  intro index slot hslot
  rw [h] at hslot
  cases hslot

/-- A slot without a value that could be read holds nothing at all. -/
theorem Sound.slotAt_of_uninitialized (h : dependency.Sound) {index : Option Int64}
    (hstatus : dependency.status index = .uninitialized) : dependency.slotAt index = .fresh := by
  cases hslot : dependency.slots.get? index with
  | none => rw [slotAt, hslot, Option.getD_none]
  | some slot =>
      rw [status, slotAt_of_get? hslot] at hstatus
      have hsound := ((sound_iff dependency).mp h index slot hslot).2.1
      rw [slotAt_of_get? hslot]
      rcases slot with ⟨_ | _ | _, _ | value⟩
      · rfl
      · simp at hsound
      · cases hstatus
      · cases hstatus
      · simp at hsound
      · cases hstatus

theorem Sound.start (h : dependency.Sound) {slot : Option Int64}
    (hfits : dependency.shape.Fits slot) (hstatus : dependency.status slot = .uninitialized) :
    (dependency.start slot).Sound := by
  rw [sound_iff] at h ⊢
  intro index found hfound
  change (dependency.slots.insert slot _).get? index = some found at hfound
  rw [Table.get?_insert] at hfound
  split at hfound
  · next heq =>
      subst heq
      cases hfound
      rw [((sound_iff dependency).mpr h).slotAt_of_uninitialized hstatus]
      exact ⟨hfits, by simp [Slot.fresh], fun _ => nofun⟩
  · exact h index found hfound

theorem Sound.finish (h : dependency.Sound) {slot : Option Int64}
    (hfits : dependency.shape.Fits slot) (began : Nat) (result : Except Error Value) :
    (dependency.finish slot began result).Sound := by
  have herase :
      ({ dependency with slots := dependency.slots.erase slot } : Dependency π).Sound := by
    rw [sound_iff] at h ⊢
    intro index found hfound
    rw [Table.get?_erase] at hfound
    split at hfound
    · cases hfound
    · exact h index found hfound
  unfold Dependency.finish
  cases result with
  | error cause => exact herase
  | ok value =>
      dsimp only
      split
      · rw [sound_iff] at h ⊢
        intro index found hfound
        rw [Table.get?_insert] at hfound
        split at hfound
        · next heq =>
            subst heq
            cases hfound
            exact ⟨hfits, by simp, fun _ => nofun⟩
        · exact h index found hfound
      · exact herase

theorem Sound.invalidate (h : dependency.Sound) : dependency.invalidate.Sound := by
  rw [sound_iff] at h ⊢
  intro index found hfound
  unfold Dependency.invalidate at hfound ⊢
  dsimp only at hfound ⊢
  cases hshape : dependency.shape with
  | scalar =>
      simp only [hshape] at hfound
      rw [Table.get?_mapValues, Option.map_eq_some_iff] at hfound
      obtain ⟨slot, hslot, rfl⟩ := hfound
      obtain ⟨hfits, -⟩ := h index slot hslot
      rw [hshape] at hfits
      refine ⟨hfits, ?_, nofun⟩
      rcases slot with ⟨_ | _ | _, cached⟩ <;> simp [Slot.clear]
  | itemwise =>
      simp only [hshape] at hfound
      rw [Table.get?_filterValues, Option.filter_eq_some_iff] at hfound
      rw [← hshape]
      exact h index found hfound.1

/-! ### Running slots -/

theorem mark_eq_evaluating_iff (dependency : Dependency π) (index : Option Int64) :
    (dependency.slotAt index).mark = .evaluating ↔ dependency.status index = .evaluating := by
  rw [status, Slot.status_eq_evaluating_iff, Slot.isRunning, beq_iff_eq]

theorem inFlight_of_mark {index : Option Int64}
    (h : (dependency.slotAt index).mark = .evaluating) : dependency.inFlight = true := by
  cases hslot : dependency.slots.get? index with
  | none =>
      rw [slotAt, hslot] at h
      cases h
  | some slot =>
      rw [slotAt_of_get? hslot] at h
      refine List.any_eq_true.mpr ⟨slot, Table.mem_values_of_get? hslot, ?_⟩
      rw [Slot.isRunning, h, beq_self_eq_true]

theorem Sound.fits_of_mark (h : dependency.Sound) {index : Option Int64}
    (hmark : (dependency.slotAt index).mark = .evaluating) : dependency.shape.Fits index := by
  cases hslot : dependency.slots.get? index with
  | none =>
      rw [slotAt, hslot] at hmark
      cases hmark
  | some slot => exact h.fits index slot hslot

theorem not_mark_of_empty (h : dependency.slots = ∅) (index : Option Int64) :
    (dependency.slotAt index).mark ≠ .evaluating := by
  rw [slotAt, h]
  intro hmark
  cases hmark

theorem mark_start_iff (dependency : Dependency π) (slot index : Option Int64) :
    ((dependency.start slot).slotAt index).mark = .evaluating ↔
      index = slot ∨ (dependency.slotAt index).mark = .evaluating := by
  rw [slotAt_start]
  split
  · next heq => simp [heq]
  · next hne => simp [hne]

theorem mark_finish_iff (dependency : Dependency π) (slot index : Option Int64) (began : Nat)
    (result : Except Error Value) :
    ((dependency.finish slot began result).slotAt index).mark = .evaluating ↔
      index ≠ slot ∧ (dependency.slotAt index).mark = .evaluating := by
  rw [slotAt_finish]
  by_cases heq : index = slot
  · rw [if_pos heq]
    refine iff_of_false ?_ fun h => h.1 heq
    cases result with
    | error cause => exact nofun
    | ok value =>
        dsimp only
        split <;> exact nofun
  · rw [if_neg heq, and_iff_right heq]

theorem mark_invalidate_iff (dependency : Dependency π) (index : Option Int64) :
    (dependency.invalidate.slotAt index).mark = .evaluating ↔
      (dependency.slotAt index).mark = .evaluating := by
  rw [mark_eq_evaluating_iff, mark_eq_evaluating_iff, status_invalidate]
  cases dependency.status index <;> simp

end Dependency

/-- The slot that a frame is for. -/
def Frame.key (frame : Frame) : Nat × Option Int64 := (frame.serial, frame.index)

namespace Environment

/-! ### Events -/

/-- Whether the slots of all held dependencies are sound, and the frames on the stack are one for
each slot that is being recomputed. -/
structure Lifecycle (env : Environment π) : Prop extends env.Identified where
  sound : ∀ dependency ∈ env.held, dependency.Sound
  frames : (env.stack.map Frame.key).Nodup
  running : ∀ serial index, (serial, index) ∈ env.stack.map Frame.key ↔
    ∃ dependency ∈ env.held, dependency.serial = serial ∧
      (dependency.slotAt index).mark = .evaluating

namespace Lifecycle

variable {env : Environment π} {event : Event π}

/-- A slot of a registered dependency is found to be recomputed if it has a frame. -/
theorem evaluating_iff (h : env.Lifecycle) {name : QualifiedName} {dependency : Dependency π}
    (hname : env.dependencies.get? name = some dependency) (slot : Option Int64) :
    dependency.status slot = .evaluating ↔
      (dependency.serial, slot) ∈ env.stack.map Frame.key := by
  rw [h.running, ← Dependency.mark_eq_evaluating_iff]
  constructor
  · exact fun hmark => ⟨dependency, mem_held_of_get? hname, rfl, hmark⟩
  · rintro ⟨running, hrunning, hserial, hmark⟩
    rwa [h.eq_of_mem_held hrunning (mem_held_of_get? hname) hserial] at hmark

/-- The slot of a recompute that can begin is not being recomputed yet. -/
theorem not_mem_of_enabled (h : env.Lifecycle) {launch : Launch π}
    (henabled : launch.Enabled env) : launch.frame.key ∉ env.stack.map Frame.key := by
  intro hmem
  have hstatus := (h.evaluating_iff henabled.registered launch.slot).mpr hmem
  rw [henabled.empty] at hstatus
  cases hstatus

/-- The slot of a recompute that can end is one of its dependency. -/
theorem fits_of_frame (h : env.Lifecycle) {launch : Launch π}
    (hframe : env.stack.head? = some launch.frame) {dependency : Dependency π}
    (hheld : dependency ∈ env.held) (hserial : dependency.serial = launch.dependency.serial) :
    dependency.shape.Fits launch.slot := by
  have hmem : launch.frame.key ∈ env.stack.map Frame.key :=
    List.mem_map_of_mem (List.mem_of_head? hframe)
  obtain ⟨running, hrunning, heq, hmark⟩ := (h.running _ _).mp hmem
  obtain rfl : running = dependency := h.eq_of_mem_held hrunning hheld (heq.trans hserial.symm)
  exact (h.sound running hrunning).fits_of_mark hmark

theorem sound_alter (h : env.Lifecycle) (henabled : event.Enabled env) {dependency : Dependency π}
    (hheld : dependency ∈ env.held) : (event.alter env dependency).Sound := by
  have hsound := h.sound dependency hheld
  cases event with
  | asked request =>
      dsimp only [Event.alter]
      split
      · exact hsound.invalidate
      · exact hsound
  | began launch =>
      dsimp only [Event.alter]
      split
      · next hserial =>
          obtain rfl : dependency = launch.dependency :=
            h.eq_of_mem_held hheld (mem_held_of_get? henabled.registered) hserial
          obtain ⟨index, hslot⟩ := henabled.index
          exact hsound.start (Shape.fits_of_slot? hslot) henabled.empty
      · exact hsound
  | ended launch result =>
      dsimp only [Event.alter]
      split
      · next hserial => exact hsound.finish (h.fits_of_frame henabled hheld hserial) _ _
      · exact hsound

theorem sound_apply (h : env.Lifecycle) (henabled : event.Enabled env) :
    ∀ dependency ∈ (event.apply env).held, dependency.Sound := by
  intro dependency hmem
  rcases h.held_apply henabled hmem with ⟨before, hheld, rfl⟩ | ⟨-, hslots⟩
  · exact h.sound_alter henabled hheld
  · exact Dependency.sound_of_empty hslots

/-- What is being recomputed after an event, seen from before it. -/
theorem running_apply (h : env.Lifecycle) (henabled : event.Enabled env) (serial : Nat)
    (index : Option Int64) :
    (∃ dependency ∈ (event.apply env).held, dependency.serial = serial ∧
      (dependency.slotAt index).mark = .evaluating) ↔
    ∃ dependency ∈ env.held, dependency.serial = serial ∧
      ((event.alter env dependency).slotAt index).mark = .evaluating := by
  constructor
  · rintro ⟨dependency, hmem, rfl, hmark⟩
    rcases h.held_apply henabled hmem with ⟨before, hheld, rfl⟩ | ⟨-, hslots⟩
    · exact ⟨before, hheld, (event.serial_alter env before).symm, hmark⟩
    · exact absurd hmark (Dependency.not_mark_of_empty hslots index)
  · rintro ⟨before, hheld, rfl, hmark⟩
    exact ⟨_, h.mem_held_apply henabled hheld (Dependency.inFlight_of_mark hmark),
      event.serial_alter env before, hmark⟩

theorem apply_asked (h : env.Lifecycle) {request : Request π}
    (henabled : (Event.asked request).Enabled env) : (request.effect env).Lifecycle where
  toIdentified := h.toIdentified.apply henabled
  sound := h.sound_apply henabled
  frames := by
    rw [stack_effect]
    exact h.frames
  running := by
    intro serial index
    rw [stack_effect, h.running serial index]
    refine Iff.trans ?_ (h.running_apply henabled serial index).symm
    have hmark : ∀ dependency : Dependency π,
        (((Event.asked request).alter env dependency).slotAt index).mark = .evaluating ↔
          (dependency.slotAt index).mark = .evaluating := by
      intro dependency
      dsimp only [Event.alter]
      split
      · exact dependency.mark_invalidate_iff index
      · exact Iff.rfl
    simp only [hmark]

theorem apply_began (h : env.Lifecycle) {launch : Launch π} (henabled : launch.Enabled env) :
    (launch.start env).Lifecycle := by
  have hevent : (Event.began launch).Enabled env := henabled
  constructor
  case toIdentified => exact h.toIdentified.apply hevent
  case sound => exact h.sound_apply hevent
  case frames => exact List.nodup_cons.mpr ⟨h.not_mem_of_enabled henabled, h.frames⟩
  case running =>
    intro serial index
    refine Iff.trans ?_ (h.running_apply hevent serial index).symm
    change (serial, index) ∈ launch.frame.key :: env.stack.map Frame.key ↔ _
    rw [List.mem_cons, h.running serial index]
    dsimp only [Event.alter]
    constructor
    · rintro (heq | ⟨dependency, hheld, hserial, hmark⟩)
      · obtain ⟨rfl, rfl⟩ := Prod.mk.inj heq
        refine ⟨launch.dependency, mem_held_of_get? henabled.registered, rfl, ?_⟩
        rw [if_pos rfl, Dependency.mark_start_iff]
        exact Or.inl rfl
      · refine ⟨dependency, hheld, hserial, ?_⟩
        split
        · exact (dependency.mark_start_iff _ _).mpr (Or.inr hmark)
        · exact hmark
    · rintro ⟨dependency, hheld, rfl, hmark⟩
      split at hmark
      · next hserial =>
          rcases (dependency.mark_start_iff _ _).mp hmark with rfl | hmark
          · rw [hserial]
            exact Or.inl rfl
          · exact Or.inr ⟨dependency, hheld, rfl, hmark⟩
      · exact Or.inr ⟨dependency, hheld, rfl, hmark⟩

theorem apply_ended (h : env.Lifecycle) {launch : Launch π}
    (hframe : env.stack.head? = some launch.frame) (result : Except Error Value) :
    (launch.finish env result).Lifecycle := by
  have hstack : env.stack = launch.frame :: env.stack.tail :=
    (List.cons_head?_tail hframe).symm
  have hnodup := h.frames
  rw [hstack, List.map_cons, List.nodup_cons] at hnodup
  have henabled : (Event.ended launch result).Enabled env := hframe
  constructor
  case toIdentified => exact h.toIdentified.finish hframe result
  case sound => exact h.sound_apply henabled
  case frames =>
    rw [Launch.finish, stack_finish]
    exact hnodup.2
  case running =>
    intro serial index
    refine Iff.trans ?_ (h.running_apply henabled serial index).symm
    -- The keys left are those that were there but for the key of the frame that goes.
    have hkeys : (serial, index) ∈ env.stack.tail.map Frame.key ↔
        (serial, index) ≠ launch.frame.key ∧ (serial, index) ∈ env.stack.map Frame.key := by
      rw [hstack, List.tail_cons, List.map_cons, List.mem_cons]
      constructor
      · intro hmem
        refine ⟨?_, Or.inr hmem⟩
        intro heq
        rw [heq] at hmem
        exact hnodup.1 hmem
      · rintro ⟨hne, heq | hmem⟩
        · exact absurd heq hne
        · exact hmem
    rw [Launch.finish, stack_finish, hkeys, h.running serial index]
    dsimp only [Event.alter]
    constructor
    · rintro ⟨hne, dependency, hheld, rfl, hmark⟩
      refine ⟨dependency, hheld, rfl, ?_⟩
      split
      · next hserial =>
          refine (dependency.mark_finish_iff _ _ _ _).mpr ⟨?_, hmark⟩
          rintro rfl
          exact hne (congrArg (·, launch.slot) hserial)
      · exact hmark
    · rintro ⟨dependency, hheld, rfl, hmark⟩
      split at hmark
      · obtain ⟨hne, hmark⟩ := (dependency.mark_finish_iff _ _ _ _).mp hmark
        exact ⟨fun heq => hne (congrArg Prod.snd heq), dependency, hheld, rfl, hmark⟩
      · next hserial =>
          exact ⟨fun heq => hserial (congrArg Prod.fst heq), dependency, hheld, rfl, hmark⟩

/-- Every event keeps slots and stack together. -/
theorem apply (h : env.Lifecycle) (henabled : event.Enabled env) : (event.apply env).Lifecycle := by
  cases event with
  | asked request => exact h.apply_asked henabled
  | began launch => exact h.apply_began henabled
  | ended launch result => exact h.apply_ended henabled result

theorem path (h : env.Lifecycle) {events : List (Event π)} {after : Environment π}
    (hpath : Path env events after) : after.Lifecycle :=
  hpath.invariant (fun henabled henv => henv.apply henabled) h

end Lifecycle
/-! ### Sessions -/

theorem lifecycle_initial (config : Config) (context : ContextPath) :
    (initial config context : Environment π).Lifecycle where
  serials := List.nodup_nil
  numbered := nofun
  detached := nofun
  begun := nofun
  taken := nofun
  owned := nofun
  sound := nofun
  frames := List.nodup_nil
  running := fun _ _ => by simp [initial, held, Table.values, EmptyCollection.emptyCollection,
    Table.empty]

variable {meaning : Meaning π} {env : Environment π}

theorem Lifecycle.cleared (h : env.Lifecycle) : env.cleared.Lifecycle :=
  ⟨⟨h.serials, h.numbered, h.detached, h.begun, h.taken, h.owned⟩, h.sound, h.frames, h.running⟩

theorem Reachable.lifecycle_and_stack (h : env.Reachable meaning) :
    env.Lifecycle ∧ env.stack = [] := by
  induction h with
  | initial config context => exact ⟨lifecycle_initial config context, rfl⟩
  | @step α env after d result hreachable hrun ih =>
      have htraces := traces_history meaning env.cleared.depthLimit d env.cleared
      exact ⟨ih.1.cleared.path (htraces.path result after hrun),
        (htraces.stack result after hrun).trans ih.2⟩

theorem Occurs.lifecycle (h : env.Occurs meaning) : env.Lifecycle := by
  obtain ⟨first, α, d, depth, events, hfirst, hevents, rfl⟩ := h
  exact hfirst.lifecycle_and_stack.1.cleared.path (path_of_history hevents)

/-- Between two steps of a session nothing is being recomputed. In a further step, values go with
the marks of their slots and frames with the slots that are being recomputed after every event of
its history, however deep it lies in other recomputes; and the history is that of the run, whose
outcome is what all of the events make. -/
theorem Reachable.lifecycle_of_history (h : env.Reachable meaning) :
    env.stack = [] ∧
    (∀ dependency ∈ env.held, ∀ index, (dependency.slotAt index).mark ≠ .evaluating) ∧
    ∀ (α : Type) (d : Dialogue π α) (depth : Nat),
      (∀ events, events <+: history meaning depth d env.cleared →
        (env.cleared.after events).Lifecycle) ∧
      ∀ result last, runWithin meaning depth d env.cleared = some (result, last) →
        last = env.cleared.after (history meaning depth d env.cleared) := by
  obtain ⟨hlifecycle, hstack⟩ := h.lifecycle_and_stack
  refine ⟨hstack, fun dependency hheld index hmark => ?_, fun α d depth => ?_⟩
  · have hframe := (hlifecycle.running _ _).mpr ⟨dependency, hheld, rfl, hmark⟩
    rw [hstack] at hframe
    exact List.not_mem_nil hframe
  · have htraces := traces_history meaning depth d env.cleared
    refine ⟨fun events hprefix => ?_, fun result last hrun => ?_⟩
    · exact Occurs.lifecycle ⟨env, α, d, depth, events, h, hprefix, rfl⟩
    · exact (htraces.path result last hrun).eq_after

end Environment

/-- The first of some steps has a run, and the others are taken after it. -/
theorem Session.exists_run_of_takeAll {step : Step} {steps : List Step}
    {env after : Environment Procedure} {reports : List StepReport}
    (h : takeAll (step :: steps) env = some (reports, after)) :
    ∃ answer middle later, env.cleared.run Procedure.dialogue (step.dialogue 0) =
      some (answer, middle) ∧ takeAll steps middle = some (later, after) := by
  rw [takeAll, Option.bind_eq_bind, Option.bind_eq_some_iff] at h
  obtain ⟨⟨report, middle⟩, htake, h⟩ := h
  obtain ⟨⟨answer, last⟩, hrun, heq⟩ := Option.map_eq_some_iff.mp htake
  cases heq
  dsimp only at h
  rw [Option.bind_eq_bind, Option.bind_eq_some_iff] at h
  obtain ⟨⟨later, last⟩, hall, heq⟩ := h
  cases heq
  exact ⟨answer, middle, later, hrun, hall⟩

theorem Session.reachable_of_takeAll {steps : List Step} {env after : Environment Procedure}
    {reports : List StepReport} (henv : env.Reachable Procedure.dialogue)
    (h : takeAll steps env = some (reports, after)) : after.Reachable Procedure.dialogue := by
  induction steps generalizing env reports with
  | nil =>
      cases h
      exact henv
  | cons step steps ih =>
      obtain ⟨answer, middle, later, hrun, hall⟩ := exists_run_of_takeAll h
      exact ih (.step henv hrun) hall

/-- The environments of sessions are reachable. -/
theorem Session.reachable_of_run {session : Session} {reports : List StepReport}
    {env : Environment Procedure} (h : session.run = some (reports, env)) :
    env.Reachable Procedure.dialogue :=
  reachable_of_takeAll (.initial session.config session.context) h

/-- A variable whose procedure defines it anew, so that its own recompute goes on without a name,
and reads it then. -/
def Session.renewing : Session where
  config := ⟨.replace⟩
  context := .root
  steps :=
    [.register (.written "x") .scalar []
      [.define (.ofBody "x" none (.constant (.int 2)) "") none, .read (.written "x") none]
      ⟨none, none, some (.constant (.int 1))⟩]

theorem Environment.Reachable.lifecycle_of_history_renewing :
    ∃ reports env, Session.renewing.run = some (reports, env) ∧ env.stack = [] ∧
      ∃ events, events <+: history Procedure.dialogue 2
          (Step.dialogue 0 (.read (.written "x") none)) env.cleared ∧
        (env.cleared.after events).Lifecycle ∧
        (env.cleared.after events).stack.length = 2 ∧
        (env.cleared.after events).superseded.length = 1 := by
  have hcomputed : (Session.renewing.run.map fun outcome =>
      let env := outcome.2.cleared
      let events := (history Procedure.dialogue 2
        (Step.dialogue 0 (.read (.written "x") none)) env).take 7
      ((env.after events).stack.length, (env.after events).superseded.length)) =
      some (2, 1) := by
    decide +kernel
  obtain ⟨⟨reports, env⟩, hrun, hlengths⟩ := Option.map_eq_some_iff.mp hcomputed
  obtain ⟨hstack, hsuperseded⟩ := Prod.mk.inj hlengths
  obtain ⟨hidle, -, hstep⟩ :=
    Reachable.lifecycle_of_history (Session.reachable_of_run hrun)
  refine ⟨reports, env, hrun, hidle, _, List.take_prefix 7 _, ?_, hstack, hsuperseded⟩
  exact (hstep Answer (Step.dialogue 0 (.read (.written "x") none)) 2).1 _ (List.take_prefix 7 _)

end Memograph
