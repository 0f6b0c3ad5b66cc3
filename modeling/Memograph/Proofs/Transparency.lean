import Memograph.Proofs.Ledger
import Memograph.Proofs.Sessions

/-! Caches that do not show. The ledger of an environment leaves out all that is cached. Where
procedures only read, each value of a slot is what the ledger gives for the slot, and this outlasts
assignments, cascades, registrations and runs. So every read is answered as it would be from
scratch, errors and cycles included: a slot with a value that is met inside of a recompute cannot
lead back to the recompute, since then neither of the two would have a value. -/

namespace Memograph

namespace Environment

variable {π α : Type}

/-- What the answers of an environment are about. -/
def ledger (env : Environment π) : Ledger π where
  config := env.config
  context := env.context
  stored := env.stored
  definitions := env.dependencies.mapValues fun dependency => dependency.toRegistration

section Ledgers

variable {env : Environment π} {name : QualifiedName} {dependency : Dependency π}

theorem ledger_get?_of_get? (h : env.dependencies.get? name = some dependency) :
    env.ledger.definitions.get? name = some dependency.toRegistration := by
  rw [ledger, Table.get?_mapValues, h, Option.map_some]

theorem ledger_get?_eq_some {registration : Registration π}
    (h : env.ledger.definitions.get? name = some registration) :
    ∃ dependency, env.dependencies.get? name = some dependency ∧
      dependency.toRegistration = registration := by
  rw [ledger, Table.get?_mapValues] at h
  exact Option.map_eq_some_iff.mp h

theorem ledger_get?_eq_none_iff :
    env.ledger.definitions.get? name = none ↔ env.dependencies.get? name = none := by
  rw [ledger, Table.get?_mapValues, Option.map_eq_none_iff]

theorem ledger_limit (env : Environment π) : env.ledger.limit = env.depthLimit := by
  have hsize : env.ledger.definitions.size = env.dependencies.size := Table.size_mapValues _ _
  rw [Ledger.limit, hsize, depthLimit]

/-- Slots, epochs and counts do not show in a ledger. -/
theorem ledger_start (h : env.dependencies.get? name = some dependency) (slot : Option Int64) :
    (env.start name dependency slot).ledger = env.ledger := by
  have hdefinitions := Table.mapValues_insert_of_eq
    (f := fun dependency : Dependency π => dependency.toRegistration) h
    (show (dependency.start slot).toRegistration = _ from rfl)
  simp only [ledger, start, hdefinitions]

theorem ledger_finish (h : env.dependencies.get? name = some dependency) (slot : Option Int64)
    (began : Nat) (result : Except Error Value) :
    (env.finish name dependency.serial began slot result).ledger = env.ledger := by
  have hsame : (dependency.finish slot began result).toRegistration = dependency.toRegistration :=
    congrArg Prod.fst (dependency.signature_finish slot began result)
  rw [finish_eq h]
  simp only [ledger, Table.mapValues_insert_of_eq h hsame]

theorem ledger_notify (env : Environment π) (name : QualifiedName) :
    (env.notify name).2.ledger = env.ledger := by
  rw [ledger, mapValues_notify fun _ => rfl, notify_snd]
  rfl

theorem ledger_assign (env : Environment π) (name : QualifiedName) (value : Value) :
    (env.assign name value).2.ledger = env.ledger.assign name value :=
  (env.store name value).ledger_notify name

theorem ledger_register (env : Environment π) (name : QualifiedName)
    (registration : Registration π) :
    (env.register name registration).2.ledger = env.ledger.register name registration := by
  have hcontains : env.ledger.definitions.contains name = env.dependencies.contains name := by
    rw [Table.contains, Table.contains, ledger, Table.get?_mapValues, Option.isSome_map]
  rw [Ledger.register, hcontains, Table.contains]
  rcases register_cases env name registration with
    ⟨hname, hregister⟩ | ⟨old, hname, hconfig, hregister⟩ | ⟨old, hname, hconfig, hregister⟩
  · rw [hregister, hname, if_neg (by simp)]
    simp only [ledger, enroll, Table.mapValues_insert, Dependency.ofRegistration]
  · rw [hregister, hname, if_pos ⟨rfl, hconfig⟩]
  · rw [hregister, ledger_notify, if_neg (by simp [ledger, hconfig])]
    simp only [ledger, supersede, Table.mapValues_insert, Dependency.ofRegistration]

end Ledgers

/-! ### Runs of procedures that only read -/

variable {meaning : Meaning π}

/-- Whether each value of a slot is what the slot has from scratch. -/
def Warranted (meaning : Meaning π) (env : Environment π) : Prop :=
  ∀ name slot value, env.statusOf name slot = .valid value →
    ∃ fuel, env.ledger.Gives meaning fuel name slot value

structure Transparent (meaning : Meaning π) (env : Environment π) : Prop where
  regular : env.Regular meaning
  quiet : env.ledger.Quiet meaning
  balanced : env.Balanced
  warranted : env.Warranted meaning

/-- Whether a dialogue is one that each slot in progress waits for: a slot has a value from scratch
only with as much room as the dialogue takes to succeed. -/
def Awaits (meaning : Meaning π) (env : Environment π) (d : Dialogue π (Except Error α)) : Prop :=
  ∀ entry ∈ env.underway, ∀ depth, env.ledger.Yields meaning depth entry →
    ∃ result, d.hold (env.ledger.readWithin meaning depth []) = some (.ok result)

/-- Whether a run ends with a result and leaves the ledger as it was. -/
def Answers (meaning : Meaning π) (env : Environment π) (outcome : Option (α × Environment π))
    (result : α) : Prop :=
  ∃ after, outcome = some (result, after) ∧ env.Evolves after ∧ after.ledger = env.ledger ∧
    after.Warranted meaning

section Reading

variable {env after : Environment π} {name : QualifiedName} {dependency : Dependency π}
  {index slot : Option Int64}

theorem Transparent.evolves (h : env.Transparent meaning) (hevolves : env.Evolves after)
    (hledger : after.ledger = env.ledger) (hwarranted : after.Warranted meaning) :
    after.Transparent meaning where
  regular := hevolves.same.regular h.regular
  quiet := hledger ▸ h.quiet
  balanced := hevolves.balanced h.balanced
  warranted := hwarranted

theorem Evolves.underway (h : env.Evolves after) : after.underway = env.underway := by
  unfold Environment.underway
  rw [h.stack]

theorem Warranted.start (h : env.Warranted meaning)
    (hname : env.dependencies.get? name = some dependency) (slot : Option Int64) :
    (env.start name dependency slot).Warranted meaning := by
  intro key position value hvalid
  rw [statusOf_start hname] at hvalid
  rw [ledger_start hname]
  split at hvalid
  · cases hvalid
  · exact h key position value hvalid

theorem Warranted.finish (h : env.Warranted meaning)
    (hname : env.dependencies.get? name = some dependency) (slot : Option Int64) (began : Nat)
    {result : Except Error Value}
    (hresult : ∀ value, result = .ok value →
      ∃ fuel, env.ledger.Gives meaning fuel name slot value) :
    (env.finish name dependency.serial began slot result).Warranted meaning := by
  intro key position value hvalid
  rw [statusOf_finish hname] at hvalid
  rw [ledger_finish hname]
  split at hvalid
  · next hslot =>
      obtain ⟨rfl, rfl⟩ := hslot
      cases result with
      | error cause => cases hvalid
      | ok whole =>
          dsimp only at hvalid
          split at hvalid
          · cases hvalid
            exact hresult value rfl
          · cases hvalid
  · exact h key position value hvalid

theorem Transparent.start (h : env.Transparent meaning)
    (hname : env.dependencies.get? name = some dependency)
    (hslot : dependency.shape.slot? index = some slot)
    (hstatus : dependency.status slot = .uninitialized) :
    (env.start name dependency slot).Transparent meaning where
  regular := (sameDependencies_start hname slot).regular h.regular
  quiet := (ledger_start hname slot).symm ▸ h.quiet
  balanced := h.balanced.start hname (Shape.fits_of_slot? hslot) hstatus
  warranted := h.warranted.start hname slot

theorem awaits_of_idle (h : env.underway = []) (meaning : Meaning π)
    (d : Dialogue π (Except Error α)) : env.Awaits meaning d := by
  rw [Awaits, h]
  exact fun _ hentry => absurd hentry List.not_mem_nil

/-- The chain of a cycle is read off the slots in progress. -/
theorem chain_of_mem_underway (h : (name, slot) ∈ env.underway) :
    env.chain name slot = Busy.cycle env.underway name slot := by
  have hentry : (fun frame : Frame => !(frame.name == name && frame.index == slot)) =
      fun frame => decide ((frame.name, frame.index) ≠ (name, slot)) := by
    funext frame
    by_cases hname : frame.name = name <;> by_cases hindex : frame.index = slot <;>
      simp [hname, hindex]
  have hshorter : (env.stack.takeWhile fun frame =>
      decide ((frame.name, frame.index) ≠ (name, slot))).length < env.stack.length := by
    obtain ⟨frame, hframe, heq⟩ := List.mem_map.mp h
    refine Nat.lt_of_le_of_ne (List.takeWhile_sublist _).length_le fun hlength => ?_
    have hall := List.takeWhile_eq_self_iff.mp ((List.takeWhile_sublist _).eq_of_length hlength)
    have hne := of_decide_eq_true (hall frame hframe)
    exact hne heq
  unfold chain Busy.cycle underway
  dsimp only
  rw [hentry, if_pos hshorter, List.takeWhile_map, List.map_map]
  rfl

section Asking

variable {next : Except Error Value → Dialogue π (Except Error α)}

theorem Awaits.read (hfailed : ∀ cause, next (.error cause) = .done (.error cause))
    (h : env.Awaits meaning (.ask (.read name index) next)) :
    env.Awaits meaning (.request (.read name index)) := by
  intro entry hentry depth hyields
  obtain ⟨result, hresult⟩ := h entry hentry depth hyields
  obtain ⟨value, hvalue, -⟩ := Dialogue.hold_read_eq_ok hfailed hresult
  exact ⟨value, by rw [Dialogue.hold_request, hvalue]⟩

/-- What waits for a dialogue waits for the rest of it, after an answer from scratch. -/
theorem Awaits.rest (hfailed : ∀ cause, next (.error cause) = .done (.error cause))
    (h : env.Awaits meaning (.ask (.read name index) next)) (hquiet : env.ledger.Quiet meaning)
    {fuel : Nat} {busy : Busy} {value : Value}
    (hanswer : env.ledger.readWithin meaning fuel busy name index = some (.ok value))
    (hunderway : after.underway = env.underway) (hledger : after.ledger = env.ledger) :
    after.Awaits meaning (next (.ok value)) := by
  rw [Awaits, hledger, hunderway]
  intro entry hentry depth hyields
  obtain ⟨result, hresult⟩ := h entry hentry depth hyields
  obtain ⟨other, hother, hrest⟩ := Dialogue.hold_read_eq_ok hfailed hresult
  have hfree := Ledger.readWithin_of_subset hquiet (List.nil_subset busy) hanswer
  obtain rfl : value = other := Except.ok.inj (Ledger.readWithin_unique hfree hother)
  exact ⟨result, hrest⟩

end Asking

/-- A slot in progress that waits for another has its value with more room than the other. -/
theorem Awaits.exists_lower (h : env.Awaits meaning (.request (.read name index)))
    (hname : env.dependencies.get? name = some dependency)
    (hslot : dependency.shape.slot? index = some slot) :
    ∀ entry ∈ env.underway, ∀ depth, env.ledger.Yields meaning depth entry →
      ∃ lower < depth, env.ledger.Yields meaning lower (name, slot) := by
  intro entry hentry depth hyields
  obtain ⟨value, hvalue⟩ := h entry hentry depth hyields
  rw [Dialogue.hold_request] at hvalue
  obtain ⟨lower, rfl, hcases⟩ := Ledger.readWithin_eq_ok hvalue
  rcases hcases with ⟨hnone, -⟩ |
    ⟨registration, position, whole, hdefined, hposition, -, hhold, -⟩
  · rw [ledger_get?_of_get? hname] at hnone
    cases hnone
  · have hregistration := hdefined
    rw [ledger_get?_of_get? hname, Option.some.injEq] at hregistration
    rw [← hregistration, hslot, Option.some.injEq] at hposition
    subst hposition
    exact ⟨lower, Nat.lt_succ_self lower, whole, registration, hdefined, hhold⟩

/-- What a slot has from scratch it has inside of the slots that wait for it. -/
theorem Awaits.eq_of_gives (h : env.Awaits meaning (.request (.read name index)))
    (hquiet : env.ledger.Quiet meaning) (hname : env.dependencies.get? name = some dependency)
    (hslot : dependency.shape.slot? index = some slot) {depth : Nat} {whole : Except Error Value}
    (hwhole : (meaning dependency.procedure slot).hold
      (env.ledger.readWithin meaning depth ((name, slot) :: env.underway)) = some whole)
    {fuel : Nat} {value : Value} (hgives : env.ledger.Gives meaning fuel name slot value) :
    whole = .ok value := by
  obtain ⟨-, registration, least, hregistration, hhold⟩ :=
    hgives.hold_of_needed hquiet (h.exists_lower hname hslot)
  obtain rfl : registration = dependency.toRegistration :=
    Option.some.inj (hregistration.symm.trans (ledger_get?_of_get? hname))
  exact Ledger.hold_readWithin_unique hwhole hhold

/-- A recompute has the slots in progress wait for its procedure, if they wait for its slot. -/
theorem Awaits.start (hquiet : env.ledger.Quiet meaning)
    (hname : env.dependencies.get? name = some dependency)
    (hslot : dependency.shape.slot? index = some slot)
    (h : env.Awaits meaning (.request (.read name index))) :
    (env.start name dependency slot).Awaits meaning (meaning dependency.procedure slot) := by
  have hdefined := ledger_get?_of_get? hname
  have hbody := hquiet name dependency.toRegistration hdefined slot
  have hself : ∀ {depth : Nat}, env.ledger.Yields meaning depth (name, slot) → ∃ result,
      (meaning dependency.procedure slot).hold (env.ledger.readWithin meaning depth []) =
        some (.ok result) := by
    rintro depth ⟨value, registration, hregistration, hhold⟩
    rw [hdefined, Option.some.injEq] at hregistration
    subst hregistration
    exact ⟨value, Ledger.hold_of_subset hquiet hbody (List.nil_subset _) hhold⟩
  rw [Awaits, ledger_start hname]
  intro entry hentry depth hyields
  rcases List.mem_cons.mp hentry with rfl | hentry
  · exact hself hyields
  · obtain ⟨lower, hlower, hneeded⟩ := h.exists_lower hname hslot entry hentry depth hyields
    obtain ⟨result, hhold⟩ := hself hneeded
    exact ⟨result, Ledger.hold_readWithin_mono (Nat.le_of_lt hlower) hhold⟩

/-- A dialogue that only reads has the result that it has from scratch, if its reads have. -/
theorem Transparent.converse {depth : Nat}
    (hread : ∀ {env : Environment π} (name : QualifiedName) (index : Option Int64)
      {answer : Except Error Value}, env.Transparent meaning →
      env.Awaits meaning (.request (.read name index)) →
      env.ledger.readWithin meaning depth env.underway name index = some answer →
        env.Answers meaning (env.read (nested meaning depth) meaning name index) answer)
    {names : List QualifiedName} {d : Dialogue π (Except Error α)} (hd : d.Reading names)
    (henv : env.Transparent meaning) (hawaits : env.Awaits meaning d) {result : Except Error α}
    (h : d.hold (env.ledger.readWithin meaning depth env.underway) = some result) :
    env.Answers meaning (converse (respond (nested meaning depth) meaning) d env) result := by
  induction hd generalizing env with
  | done other =>
      cases h
      exact ⟨env, rfl, .refl env, rfl, henv.warranted⟩
  | @read name index next hname hfailed hnext ih =>
      obtain ⟨answer, hanswer, hrest⟩ := Option.bind_eq_some_iff.mp h
      obtain ⟨middle, hreply, hstep, hledger, hwarranted⟩ :=
        hread name index henv (hawaits.read hfailed) hanswer
      rw [Answers, converse_read hreply]
      cases answer with
      | error cause =>
          rw [hfailed] at hrest ⊢
          cases hrest
          exact ⟨middle, rfl, hstep, hledger, hwarranted⟩
      | ok value =>
          have hmiddle := henv.evolves hstep hledger hwarranted
          have hlater := hawaits.rest hfailed henv.quiet hanswer hstep.underway hledger
          rw [← hledger, ← hstep.underway] at hrest
          obtain ⟨after, hrun, hlast, hsame, hkept⟩ := ih value hmiddle hlater hrest
          exact ⟨after, hrun, hstep.trans hlast, hsame.trans hledger, hkept⟩

/-- Ends a recompute that answered as from scratch. -/
theorem Answers.finish {depth : Nat} {whole : Except Error Value}
    (hquiet : env.ledger.Quiet meaning) (hname : env.dependencies.get? name = some dependency)
    (hstatus : dependency.status slot = .uninitialized)
    (hwhole : (meaning dependency.procedure slot).hold
      (env.ledger.readWithin meaning depth ((name, slot) :: env.underway)) = some whole)
    (h : (env.start name dependency slot).Answers meaning
      (nested meaning (depth + 1) (meaning dependency.procedure slot)
        (env.start name dependency slot)) whole) :
    env.Answers meaning
      (compute (nested meaning (depth + 1)) meaning name dependency slot env) whole := by
  obtain ⟨middle, hrun, hevolves, hledger, hwarranted⟩ := h
  rw [ledger_start hname] at hledger
  have hsame := (sameDependencies_start hname slot).trans hevolves.same
  obtain ⟨later, hlater, -, hserial⟩ := hsame.get?_eq_some hname
  refine ⟨middle.finish name dependency.serial dependency.epoch slot whole, ?_,
    hevolves.recompute hname hstatus _ _, ?_, ?_⟩
  · exact compute_of_uninitialized hstatus hrun
  · rw [← hserial, ledger_finish hlater, hledger]
  · rw [← hserial]
    refine hwarranted.finish hlater slot _ fun value hvalue => ?_
    subst hvalue
    rw [hledger]
    exact ⟨depth, Ledger.gives_of_hold hquiet (ledger_get?_of_get? hname) hwhole⟩

/-- A value that is met inside of recomputes is what the slot has from scratch inside of them. -/
theorem Warranted.hold_of_valid (h : env.Warranted meaning) (hquiet : env.ledger.Quiet meaning)
    (hawaits : env.Awaits meaning (.request (.read name index)))
    (hname : env.dependencies.get? name = some dependency)
    (hslot : dependency.shape.slot? index = some slot) {value : Value}
    (hstatus : dependency.status slot = .valid value) :
    (name, slot) ∉ env.underway ∧ ∃ fuel, (meaning dependency.procedure slot).hold
      (env.ledger.readWithin meaning fuel ((name, slot) :: env.underway)) = some (.ok value) := by
  have hvalid : env.statusOf name slot = .valid value := by
    rw [statusOf_of_get? hname, hstatus]
  obtain ⟨fuel, hgives⟩ := h name slot value hvalid
  obtain ⟨hidle, registration, least, hregistration, hhold⟩ :=
    hgives.hold_of_needed hquiet (hawaits.exists_lower hname hslot)
  obtain rfl : registration = dependency.toRegistration :=
    Option.some.inj (hregistration.symm.trans (ledger_get?_of_get? hname))
  exact ⟨hidle, least, hhold⟩

/-- A read is answered as from scratch, whatever the caches hold. -/
theorem Transparent.read (depth : Nat) (name : QualifiedName) (index : Option Int64)
    {answer : Except Error Value} (henv : env.Transparent meaning)
    (hawaits : env.Awaits meaning (.request (.read name index)))
    (h : env.ledger.readWithin meaning depth env.underway name index = some answer) :
    env.Answers meaning (env.read (nested meaning depth) meaning name index) answer := by
  induction depth generalizing env name index answer with
  | zero => cases h
  | succ depth ih =>
      cases hname : env.dependencies.get? name with
      | none =>
          rw [Ledger.readWithin_of_undefined (ledger_get?_eq_none_iff.mpr hname)] at h
          cases h
          exact ⟨env, read_of_unregistered hname index, .refl env, rfl, henv.warranted⟩
      | some dependency =>
          have hdefined := ledger_get?_of_get? hname
          cases hslot : dependency.shape.slot? index with
          | none =>
              rw [Ledger.readWithin_of_unindexed hdefined hslot] at h
              cases h
              exact ⟨env, read_of_unindexed hname hslot, .refl env, rfl, henv.warranted⟩
          | some slot =>
              suffices hcompute : ∃ whole, answer = whole.bind (dependency.shape.part index) ∧
                  env.Answers meaning
                    (compute (nested meaning (depth + 1)) meaning name dependency slot env) whole by
                obtain ⟨whole, rfl, after, hafter, hrest⟩ := hcompute
                exact ⟨after, by rw [read_of_slot? hname hslot, hafter]; rfl, hrest⟩
              cases hstatus : dependency.status slot with
              | valid value =>
                  obtain ⟨hidle, fuel, hhold⟩ :=
                    henv.warranted.hold_of_valid henv.quiet hawaits hname hslot hstatus
                  have hscratch : env.ledger.readWithin meaning (fuel + 1) env.underway name index =
                      some ((Except.ok value).bind (dependency.shape.part index)) := by
                    rw [Ledger.readWithin_of_idle hdefined hslot hidle, hhold]
                    rfl
                  refine ⟨.ok value, Ledger.readWithin_unique h hscratch, env, ?_, .refl env, rfl,
                    henv.warranted⟩
                  rw [compute, hstatus]
              | evaluating =>
                  have hbusy : (name, slot) ∈ env.underway := by
                    rw [← henv.balanced.running, statusOf_of_get? hname, hstatus]
                  rw [Ledger.readWithin_of_busy hdefined hslot hbusy] at h
                  cases h
                  refine ⟨.error _, rfl, env, ?_, .refl env, rfl, henv.warranted⟩
                  rw [compute, hstatus, chain_of_mem_underway hbusy]
              | uninitialized =>
                  have hidle : (name, slot) ∉ env.underway := by
                    rw [← henv.balanced.running, statusOf_of_get? hname, hstatus]
                    intro hrunning
                    cases hrunning
                  rw [Ledger.readWithin_of_idle hdefined hslot hidle, Option.map_eq_some_iff] at h
                  obtain ⟨whole, hwhole, rfl⟩ := h
                  have hbody := henv.quiet name _ hdefined slot
                  refine ⟨whole, rfl, .finish henv.quiet hname hstatus hwhole ?_⟩
                  rw [nested, runWithin_eq_converse]
                  refine Transparent.converse ih hbody (henv.start hname hslot hstatus)
                    (hawaits.start henv.quiet hname hslot) ?_
                  rw [ledger_start hname]
                  exact hwhole

end Reading

end Environment
end Memograph
