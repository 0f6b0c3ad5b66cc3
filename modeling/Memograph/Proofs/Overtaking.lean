import Memograph.Proofs.Lifecycle

/-! Recomputes that cascades overtake. While the recompute of a slot runs, each cascade that visits
its dependency moves the epoch on by one, and nothing else does. So the epoch says in the end
whether there was any, whatever else happened in between, and the slot keeps the result only if
there was none. -/

namespace Memograph

variable {π : Type}

namespace Environment

/-- How many of some events have a cascade that visits the dependency with a serial number. -/
def visits (serial : Nat) : Environment π → List (Event π) → Nat
  | _, [] => 0
  | env, event :: events =>
    (event.visits env serial).toNat + visits serial (event.apply env) events

theorem visits_append (serial : Nat) (env : Environment π) (before events : List (Event π)) :
    env.visits serial (before ++ events) =
      env.visits serial before + (env.after before).visits serial events := by
  induction before generalizing env with
  | nil => exact (Nat.zero_add _).symm
  | cons event before ih =>
      rw [List.cons_append, visits, visits, ih, Nat.add_assoc]
      rfl

theorem visits_le_length (serial : Nat) (env : Environment π) (events : List (Event π)) :
    env.visits serial events ≤ events.length := by
  induction events generalizing env with
  | nil => exact Nat.le_refl 0
  | cons event events ih =>
      rw [visits, List.length_cons, Nat.add_comm]
      exact Nat.add_le_add (ih _) (Bool.toNat_le _)

/-! ### One event -/

section Event

variable {env : Environment π} {event : Event π}

/-- The epoch of a dependency counts the visits. -/
theorem epoch_alter (env : Environment π) (dependency : Dependency π) (event : Event π) :
    (event.alter env dependency).epoch =
      dependency.epoch + (event.visits env dependency.serial).toNat := by
  cases event with
  | asked request =>
      dsimp only [Event.alter]
      cases hvisits : (Event.asked request).visits env dependency.serial with
      | false => rfl
      | true => rfl
  | began launch =>
      dsimp only [Event.alter]
      split <;> rfl
  | ended launch result =>
      dsimp only [Event.alter]
      split
      · exact dependency.epoch_finish _ _ _
      · rfl

theorem registrations_le_apply (env : Environment π) (event : Event π) :
    env.registrations ≤ (event.apply env).registrations := by
  cases event with
  | asked request =>
      change _ ≤ (request.effect env).registrations
      have hprepare : env.registrations ≤ (request.prepare env).registrations := by
        rcases request.prepare_cases env with
          ⟨-, -, -, hsame, -⟩ | ⟨name, registration, -, ⟨-, h⟩ | ⟨old, -, h⟩⟩
        · exact hsame.ge
        · rw [h]
          exact Nat.le_succ _
        · rw [h]
          exact Nat.le_succ _
      rw [Request.effect_eq]
      split
      · exact hprepare
      · rw [notify_snd]
        exact hprepare
  | began launch => exact Nat.le_refl _
  | ended launch result =>
      change _ ≤ (env.finish _ _ _ _ _).registrations
      unfold finish
      dsimp only
      split
      · split <;> exact Nat.le_refl _
      · exact Nat.le_refl _

/-- A value stays in its slot through an event without a visit. -/
theorem Lifecycle.slotAt_alter_of_valid (h : env.Lifecycle) (henabled : event.Enabled env)
    {dependency : Dependency π} (hheld : dependency ∈ env.held)
    (hvisits : event.visits env dependency.serial = false) {index : Option Int64} {value : Value}
    (hvalid : dependency.slotAt index = ⟨.valid, some value⟩) :
    (event.alter env dependency).slotAt index = ⟨.valid, some value⟩ := by
  cases event with
  | asked request =>
      dsimp only [Event.alter]
      rw [hvisits]
      exact hvalid
  | began launch =>
      dsimp only [Event.alter]
      split
      · next hserial =>
          obtain rfl : dependency = launch.dependency :=
            h.eq_of_mem_held hheld (mem_held_of_get? henabled.registered) hserial
          have hne : index ≠ launch.slot := by
            rintro rfl
            have hempty := henabled.empty
            rw [Dependency.status, hvalid] at hempty
            cases hempty
          rw [Dependency.slotAt_start, if_neg hne, hvalid]
      · exact hvalid
  | ended launch result =>
      dsimp only [Event.alter]
      split
      · next hserial =>
          have hne : index ≠ launch.slot := by
            rintro rfl
            have hmem : launch.frame.key ∈ env.stack.map Frame.key :=
              List.mem_map_of_mem (List.mem_of_head? henabled)
            obtain ⟨running, hrunning, heq, hmark⟩ := (h.running _ _).mp hmem
            obtain rfl : running = dependency :=
              h.eq_of_mem_held hrunning hheld (heq.trans hserial.symm)
            change (running.slotAt launch.slot).mark = _ at hmark
            rw [hvalid] at hmark
            cases hmark
          rw [Dependency.slotAt_finish, if_neg hne, hvalid]
      · exact hvalid

end Event

/-! ### Paths -/

/-- What a path makes of a dependency that was registered before: the epoch counts the visits, and
values stay where there are none. -/
theorem Lifecycle.held_path {env after : Environment π} {events : List (Event π)}
    (h : env.Lifecycle) (hpath : Path env events after) {dependency : Dependency π}
    (hmem : dependency ∈ after.held) (hold : dependency.serial < env.registrations) :
    ∃ before ∈ env.held, before.serial = dependency.serial ∧
      dependency.epoch = before.epoch + env.visits dependency.serial events ∧
      (env.visits dependency.serial events = 0 → ∀ index value,
        before.slotAt index = ⟨.valid, some value⟩ →
          dependency.slotAt index = ⟨.valid, some value⟩) := by
  induction hpath with
  | nil env =>
      exact ⟨dependency, hmem, rfl, rfl, fun _ _ _ hvalid => hvalid⟩
  | @cons env after event events henabled hrest ih =>
      obtain ⟨middle, hmiddle, hserial, hepoch, hkept⟩ := ih (h.apply henabled) hmem
        (Nat.lt_of_lt_of_le hold (env.registrations_le_apply event))
      rcases h.held_apply henabled hmiddle with ⟨before, hheld, rfl⟩ | ⟨hnew, -⟩
      · rw [Event.serial_alter] at hserial
        refine ⟨before, hheld, hserial, ?_, fun hzero index value hvalid => ?_⟩
        · rw [hepoch, epoch_alter, hserial, visits, Nat.add_assoc]
        · rw [visits, Nat.add_eq_zero_iff] at hzero
          refine hkept hzero.2 index value (h.slotAt_alter_of_valid henabled hheld ?_ hvalid)
          rw [hserial]
          simpa using hzero.1
      · rw [← hserial, hnew] at hold
        exact absurd hold (Nat.lt_irrefl _)

theorem registrations_le_path {env after : Environment π} {events : List (Event π)}
    (h : Path env events after) : env.registrations ≤ after.registrations := by
  induction h with
  | nil => exact Nat.le_refl _
  | cons _ _ ih => exact Nat.le_trans (registrations_le_apply _ _) ih

variable {env middle : Environment π} {launch : Launch π} {inner : List (Event π)}

/-- While a recompute runs, the epoch of its dependency counts the visits. -/
theorem Lifecycle.epoch_of_recompute (h : env.Lifecycle) (henabled : launch.Enabled env)
    (hpath : Path (launch.start env) inner middle) {item : Dependency π}
    (hitem : item ∈ middle.held) (hserial : item.serial = launch.dependency.serial) :
    item.epoch = launch.dependency.epoch +
      (launch.start env).visits launch.dependency.serial inner := by
  have hbegan := h.apply_began henabled
  have hlt : item.serial < (launch.start env).registrations := by
    rw [hserial]
    exact h.serial_lt (mem_held_of_get? henabled.registered)
  obtain ⟨before, hbefore, hsame, hepoch, -⟩ := hbegan.held_path hpath hitem hlt
  have hname : (launch.start env).dependencies.get? launch.name =
      some (launch.dependency.start launch.slot) :=
    (get?_start _ _ _ _ _).trans (if_pos rfl)
  obtain rfl : before = launch.dependency.start launch.slot :=
    hbegan.eq_of_mem_held hbefore (mem_held_of_get? hname) (hsame.trans hserial)
  rw [hepoch, hserial, Dependency.epoch_start]

theorem sameEpoch_add_iff (epoch count : Nat) :
    Dependency.sameEpoch (epoch + count) epoch = true ↔ count % UInt64.size = 0 := by
  rw [Dependency.sameEpoch, beq_iff_eq, UInt64.size]
  omega

/-- A recompute that succeeds, and that no cascade visits, leaves its value in the slot, and it
stays there until the next visit. -/
theorem Lifecycle.slotAt_of_recompute (h : env.Lifecycle) (henabled : launch.Enabled env)
    {rest : List (Event π)} {value : Value}
    (hpath : Path (launch.start env) (inner ++ .ended launch (.ok value) :: rest) middle)
    (hvisits : (launch.start env).visits launch.dependency.serial
      (inner ++ .ended launch (.ok value) :: rest) = 0)
    {item : Dependency π} (hitem : item ∈ middle.held)
    (hserial : item.serial = launch.dependency.serial) :
    item.slotAt launch.slot = ⟨.valid, some value⟩ := by
  obtain ⟨before, hinner, hlast⟩ := hpath.split
  have hbefore := (h.apply_began henabled).path hinner
  rw [visits_append, ← hinner.eq_after, Nat.add_eq_zero_iff] at hvisits
  cases hlast with
  | cons hended hrest =>
      have hafter := hbefore.apply hended
      have hlt : item.serial < before.registrations := by
        have hbegan : launch.dependency.serial < (launch.start env).registrations :=
          h.serial_lt (mem_held_of_get? henabled.registered)
        rw [hserial]
        exact Nat.lt_of_lt_of_le hbegan (registrations_le_path hinner)
      obtain ⟨after, hmem, hsame, -, hkept⟩ := hafter.held_path hrest hitem
        (Nat.lt_of_lt_of_le hlt (before.registrations_le_apply _))
      have hzero := (Nat.add_eq_zero_iff.mp hvisits.2).2
      rw [← hserial] at hzero
      refine hkept hzero _ _ ?_
      rcases hbefore.held_apply hended hmem with ⟨running, hrunning, rfl⟩ | ⟨hnew, -⟩
      · rw [Event.serial_alter] at hsame
        have hepoch := h.epoch_of_recompute henabled hinner hrunning (hsame.trans hserial)
        rw [hvisits.1, Nat.add_zero] at hepoch
        rw [Event.alter, if_pos (hsame.trans hserial), Dependency.slotAt_finish, if_pos rfl, hepoch]
        simp [Dependency.sameEpoch]
      · rw [← hsame, hnew] at hlt
        exact absurd hlt (Nat.lt_irrefl _)

/-- A slot that was recomputed on the way, without a visit since, still has its value. -/
theorem Lifecycle.slotAt_of_nested (h : env.Lifecycle) {before during rest : List (Event π)}
    {nested : Launch π} {value : Value}
    (hpath : Path env (before ++ .began nested :: (during ++ .ended nested (.ok value) :: rest))
      middle)
    (hvisits : (nested.start (env.after before)).visits nested.dependency.serial
      (during ++ .ended nested (.ok value) :: rest) = 0)
    {item : Dependency π} (hitem : item ∈ middle.held)
    (hserial : item.serial = nested.dependency.serial) :
    item.slotAt nested.slot = ⟨.valid, some value⟩ := by
  obtain ⟨there, hbefore, hrest⟩ := hpath.split
  rw [← hbefore.eq_after] at hvisits
  cases hrest with
  | cons hnested hrest =>
      exact (h.path hbefore).slotAt_of_recompute hnested hrest hvisits hitem hserial

/-- The cascade of a registration that takes a name visits what the name reaches. -/
theorem Lifecycle.visits_register (h : env.Lifecycle) {name key : QualifiedName}
    (registration : Registration π) {old dependency : Dependency π}
    (hname : env.dependencies.get? name = some old) (hconfig : env.config.redefinition = .replace)
    (hkey : env.dependencies.get? key = some dependency) (hne : key ≠ name)
    (hreaches : env.Reaches name key) :
    (Event.asked (.register name registration)).visits env dependency.serial = true := by
  have hcascade : (Request.register name registration).cascade? env = some name := by
    simp only [Request.cascade?, hname, hconfig]
  have hprepare : (Request.register name registration).prepare env =
      env.supersede name old registration := by
    simp only [Request.prepare, hname, hconfig]
  have hinstalls := installs_supersede env name old registration
  have hlater : (env.supersede name old registration).dependencies.get? key = some dependency := by
    rw [hinstalls.get?, if_neg hne, hkey]
  rw [Event.visits, hcascade, Option.any_some, hprepare,
    (h.toIdentified.supersede hname registration).cascadesTo_iff_reaches hlater]
  exact (reaches_self_iff hinstalls.readers key).mpr hreaches

/-- A dependency is visited on a path that registers anew a name that reaches it. -/
theorem Lifecycle.visits_pos_of_register (h : env.Lifecycle) {before rest : List (Event π)}
    {name key : QualifiedName} {registration : Registration π} {old dependency : Dependency π}
    (hpath : Path env (before ++ .asked (.register name registration) :: rest) middle)
    (hname : (env.after before).dependencies.get? name = some old)
    (hconfig : (env.after before).config.redefinition = .replace)
    (hkey : (env.after before).dependencies.get? key = some dependency) (hne : key ≠ name)
    (hreaches : (env.after before).Reaches name key) :
    0 < env.visits dependency.serial (before ++ .asked (.register name registration) :: rest) := by
  obtain ⟨there, hbefore, -⟩ := hpath.split
  rw [← hbefore.eq_after] at hname hconfig hkey hreaches
  have hvisit := (h.path hbefore).visits_register registration hname hconfig hkey hne hreaches
  rw [visits_append, visits, ← hbefore.eq_after, hvisit]
  change 0 < _ + (1 + _)
  omega

end Environment

/-! ### The end of a recompute -/

namespace Launch

variable (launch : Launch π) (meaning : Meaning π) (depth : Nat) (env middle : Environment π)

/-- The events of the procedure of a recompute. -/
def history : List (Event π) :=
  Environment.history meaning depth (launch.dialogue meaning) (launch.start env)

/-- How many cascades visit the dependency while its recompute runs. -/
def visits : Nat :=
  (launch.start env).visits launch.dependency.serial (launch.history meaning depth env)

/-- How a recompute ends whose procedure has come to a result. Its dependency, as it is by then,
is `item`, and is still `item` but for one slot when the recompute is over. -/
structure Ends (item : Dependency π) (result : Except Error Value) : Prop where
  held : item ∈ middle.held ∧ item.serial = launch.dependency.serial
  /-- Who asked for the slot hears the result, whatever has happened to the slot. -/
  replied : Environment.compute (Environment.runWithin meaning depth) meaning launch.name
    launch.dependency launch.slot env = some (result, launch.finish middle result)
  overtaken : launch.visits meaning depth env % UInt64.size ≠ 0 →
    (item.finish launch.slot launch.dependency.epoch result).slotAt launch.slot = .fresh
  failed : ∀ cause, result = .error cause →
    (item.finish launch.slot launch.dependency.epoch result).slotAt launch.slot = .fresh
  kept : launch.visits meaning depth env % UInt64.size = 0 → ∀ value, result = .ok value →
    (item.finish launch.slot launch.dependency.epoch result).slotAt launch.slot =
      ⟨.valid, some value⟩
  others : ∀ index, index ≠ launch.slot →
    (item.finish launch.slot launch.dependency.epoch result).slotAt index = item.slotAt index
  /-- Another slot that was recomputed on the way, without a visit since, still has its value. -/
  later : ∀ before nested during value rest,
    launch.history meaning depth env =
      before ++ .began nested :: (during ++ .ended nested (.ok value) :: rest) →
    nested.dependency.serial = launch.dependency.serial → nested.slot ≠ launch.slot →
    (nested.start ((launch.start env).after before)).visits launch.dependency.serial
      (during ++ .ended nested (.ok value) :: rest) = 0 →
    (item.finish launch.slot launch.dependency.epoch result).slotAt nested.slot =
      ⟨.valid, some value⟩
  /-- While it has its name, the dependency is found there with the slot as it is now. -/
  named : ∀ current, middle.dependencies.get? launch.name = some current →
    current.serial = launch.dependency.serial → ∀ key,
    (launch.finish middle result).dependencies.get? key =
      if key = launch.name then some (item.finish launch.slot launch.dependency.epoch result)
      else middle.dependencies.get? key
  /-- The dependency that has taken its name is left alone. -/
  renamed : ∀ current, middle.dependencies.get? launch.name = some current →
    current.serial ≠ launch.dependency.serial →
    (launch.finish middle result).dependencies = middle.dependencies
  stays : (item.finish launch.slot launch.dependency.epoch result).inFlight = true →
    item.finish launch.slot launch.dependency.epoch result ∈ (launch.finish middle result).held
  /-- A name that reaches the dependency was registered anew on the way. -/
  redefined : ∀ before name registration rest old current,
    launch.history meaning depth env = before ++ .asked (.register name registration) :: rest →
    ((launch.start env).after before).dependencies.get? name = some old →
    ((launch.start env).after before).config.redefinition = .replace →
    ((launch.start env).after before).dependencies.get? launch.name = some current →
    current.serial = launch.dependency.serial → launch.name ≠ name →
    ((launch.start env).after before).Reaches name launch.name →
      0 < launch.visits meaning depth env

end Launch

namespace Environment

variable {meaning : Meaning π} {depth : Nat} {env middle : Environment π} {launch : Launch π}
  {result : Except Error Value}

/-- However a recompute goes, its slot has a value in the end exactly if the procedure has given
one and no cascade has visited the dependency in the meantime, where cascades are counted by the
low sixty-four bits of their number. -/
theorem Occurs.exists_ends (h : env.Occurs meaning) (henabled : launch.Enabled env)
    (hrun : runWithin meaning depth (launch.dialogue meaning) (launch.start env) =
      some (result, middle)) :
    ∃ item, launch.Ends meaning depth env middle item result := by
  have hlifecycle := h.lifecycle
  have htraces := traces_history meaning depth (launch.dialogue meaning) (launch.start env)
  have hpath : Path (launch.start env) (launch.history meaning depth env) middle :=
    htraces.path result middle hrun
  have hstack : middle.stack = launch.frame :: env.stack := htraces.stack result middle hrun
  have hmiddle := (hlifecycle.apply_began henabled).path hpath
  have hended : (Event.ended launch result).Enabled middle := by
    change middle.stack.head? = some launch.frame
    rw [hstack, List.head?_cons]
  have hframe : (launch.dependency.serial, launch.slot) ∈ middle.stack.map Frame.key := by
    rw [hstack]
    exact List.mem_cons_self
  -- The recompute is still on the stack, so its dependency is held, registered or not.
  obtain ⟨item, hitem, hserial, -⟩ := (hmiddle.running _ _).mp hframe
  have halter : (Event.ended launch result).alter middle item =
      item.finish launch.slot launch.dependency.epoch result := by
    rw [Event.alter, if_pos hserial]
  have hepoch : Dependency.sameEpoch item.epoch launch.dependency.epoch = true ↔
      launch.visits meaning depth env % UInt64.size = 0 := by
    rw [hlifecycle.epoch_of_recompute henabled hpath hitem hserial, sameEpoch_add_iff]
    rfl
  have hslot := item.slotAt_finish launch.slot launch.slot launch.dependency.epoch result
  rw [if_pos rfl] at hslot
  have hothers : ∀ index, index ≠ launch.slot →
      (item.finish launch.slot launch.dependency.epoch result).slotAt index =
        item.slotAt index := by
    intro index hne
    rw [Dependency.slotAt_finish, if_neg hne]
  refine ⟨item, ?_⟩
  constructor
  case held => exact ⟨hitem, hserial⟩
  case replied =>
    have hprocedure : runWithin meaning depth (meaning launch.dependency.procedure launch.slot)
        (env.start launch.name launch.dependency launch.slot) = some (result, middle) := hrun
    unfold compute
    rw [henabled.empty]
    dsimp only
    rw [hprocedure]
    rfl
  case overtaken =>
    intro hvisits
    rw [hslot]
    cases result with
    | error cause => rfl
    | ok value => exact if_neg (mt hepoch.mp hvisits)
  case failed =>
    rintro cause rfl
    exact hslot
  case kept =>
    rintro hvisits value rfl
    rw [hslot]
    exact if_pos (hepoch.mpr hvisits)
  case others => exact hothers
  case later =>
    intro before nested during value rest hhistory hsame hne hvisits
    rw [hhistory] at hpath
    rw [← hsame] at hvisits
    rw [hothers nested.slot hne]
    exact (hlifecycle.apply_began henabled).slotAt_of_nested hpath hvisits hitem
      (hserial.trans hsame.symm)
  case named =>
    intro current hcurrent heq key
    obtain rfl : current = item :=
      hmiddle.eq_of_mem_held (mem_held_of_get? hcurrent) hitem (heq.trans hserial.symm)
    rw [Launch.finish, ← heq]
    exact get?_finish hcurrent _ _ _ key
  case renamed =>
    intro current hcurrent hne
    rw [Launch.finish, finish_registered hcurrent hne]
  case stays =>
    intro hflight
    have hmem := hmiddle.mem_held_apply hended hitem
    rw [halter] at hmem
    exact hmem hflight
  case redefined =>
    intro before name registration rest old current hhistory hold hconfig hcurrent heq hne hreaches
    rw [hhistory] at hpath
    rw [Launch.visits, hhistory, ← heq]
    exact (hlifecycle.apply_began henabled).visits_pos_of_register hpath hold hconfig hcurrent hne
      hreaches

end Environment

/-- A variable that reads another one, and whose procedure assigns to that one before it ends. -/
def Session.outdating : Session where
  config := .standard
  context := .root
  steps :=
    [.register (.written "x") .scalar [.written "y"] [.assign (.written "y") (.int 5)]
      ⟨none, none, some (.constant (.int 1))⟩]

/-- The reader hears the value, and the variable is to be recomputed once more. -/
theorem Environment.Occurs.exists_ends_outdating :
    ∃ reports env launch value middle, Session.outdating.run = some (reports, env) ∧
      (Request.read ⟨.root, "x"⟩ none).launch? env.cleared = some launch ∧
      runWithin Procedure.dialogue 1 (launch.dialogue Procedure.dialogue)
        (launch.start env.cleared) = some (.ok value, middle) ∧
      launch.visits Procedure.dialogue 1 env.cleared = 1 ∧
      compute (runWithin Procedure.dialogue 1) Procedure.dialogue launch.name launch.dependency
        launch.slot env.cleared = some (.ok value, launch.finish middle (.ok value)) ∧
      ∃ item ∈ middle.held, item.serial = launch.dependency.serial ∧
        (item.finish launch.slot launch.dependency.epoch (.ok value)).slotAt launch.slot =
          .fresh := by
  have hcomputed : (Session.outdating.run.bind fun outcome =>
      ((Request.read ⟨.root, "x"⟩ none).launch? outcome.2.cleared).bind fun launch =>
        (runWithin Procedure.dialogue 1 (launch.dialogue Procedure.dialogue)
          (launch.start outcome.2.cleared)).map fun ended =>
            (ended.1.isOk, launch.visits Procedure.dialogue 1 outcome.2.cleared)) =
      some (true, 1) := by
    decide +kernel
  obtain ⟨⟨reports, env⟩, hrun, hcomputed⟩ := Option.bind_eq_some_iff.mp hcomputed
  obtain ⟨launch, hlaunch, hcomputed⟩ := Option.bind_eq_some_iff.mp hcomputed
  obtain ⟨⟨result, middle⟩, hinner, hcomputed⟩ := Option.map_eq_some_iff.mp hcomputed
  obtain ⟨hok, hvisits⟩ := Prod.mk.inj hcomputed
  dsimp only at hlaunch hinner hok hvisits
  cases result with
  | error cause => cases hok
  | ok value =>
      have hoccurs : env.cleared.Occurs Procedure.dialogue :=
        ⟨env, Unit, .done (), 0, [], Session.reachable_of_run hrun, List.nil_prefix, rfl⟩
      obtain ⟨item, hends⟩ := Occurs.exists_ends hoccurs (enabled_of_launch? hlaunch) hinner
      refine ⟨reports, env, launch, value, middle, hrun, hlaunch, hinner, hvisits, hends.replied,
        item, hends.held.1, hends.held.2, hends.overtaken ?_⟩
      rw [hvisits]
      decide

end Memograph
