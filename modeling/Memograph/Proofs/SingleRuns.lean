import Memograph.Proofs.Commuting

/-! The recomputes of one read. A body goes on no further after a read that fails, and reads a value
where a recompute has left one. So within one top-level read no slot is recomputed a second time,
whether the first time has given it a value, has failed or is not over, and however many slots wait
for it. -/

namespace Memograph

variable {π α : Type}

/-! ### The slots of a workload -/

theorem Dialogue.exists_of_mem_workload
    {read : QualifiedName → Option Int64 → Option (Except Error Value)}
    {work : QualifiedName → Option Int64 → Busy} {d : Dialogue π α} {entry : Entry}
    (h : entry ∈ d.workload read work) : ∃ name index, entry ∈ work name index := by
  induction d with
  | done result => cases h
  | ask request next ih =>
      cases request with
      | read name index =>
          rw [workload, List.mem_append] at h
          rcases h with hfirst | hrest
          · exact ⟨name, index, hfirst⟩
          · cases hread : read name index with
            | none =>
                rw [hread] at hrest
                cases hrest
            | some answer =>
                rw [hread] at hrest
                exact ih answer hrest
      | _ => cases h

/-- The slots of a workload are slots of definitions. -/
theorem Ledger.fits_of_mem_workWithin {meaning : Meaning π} {ledger : Ledger π} {fuel : Nat}
    {busy : Busy} {name : QualifiedName} {index : Option Int64} {entry : Entry}
    (h : entry ∈ ledger.workWithin meaning fuel busy name index) :
    ∃ registration, ledger.definitions.get? entry.1 = some registration ∧
      registration.shape.Fits entry.2 := by
  induction fuel generalizing busy name index with
  | zero => cases h
  | succ fuel ih =>
      cases hname : ledger.definitions.get? name with
      | none =>
          rw [workWithin_of_undefined hname] at h
          cases h
      | some registration =>
          cases hslot : registration.shape.slot? index with
          | none =>
              rw [workWithin_of_unindexed hname hslot] at h
              cases h
          | some slot =>
              by_cases hidle : (name, slot) ∈ busy
              · rw [workWithin_of_busy hname hslot hidle] at h
                cases h
              · rw [workWithin_of_idle hname hslot hidle] at h
                rcases List.mem_cons.mp h with rfl | hrest
                · exact ⟨registration, hname, Shape.fits_of_slot? hslot⟩
                · obtain ⟨read, place, hmem⟩ := Dialogue.exists_of_mem_workload hrest
                  exact ih hmem

/-- Of a scalar dependency there is one slot to be run. -/
theorem Ledger.Fitting.count_le_one {ledger : Ledger π} {busy : Busy} (h : ledger.Fitting busy)
    {name : QualifiedName} {registration : Registration π}
    (hname : ledger.definitions.get? name = some registration)
    (hshape : registration.shape = .scalar) : (busy.map Prod.fst).count name ≤ 1 := by
  have hslot : ∀ entry ∈ busy, (entry.1 == name) = true ↔ (entry == (name, none)) = true := by
    intro entry hentry
    rw [beq_iff_eq, beq_iff_eq]
    constructor
    · rintro rfl
      obtain ⟨found, hfound, hfits⟩ := h.fits entry hentry
      obtain rfl : registration = found := Option.some.inj (hname.symm.trans hfound)
      rw [hshape] at hfits
      exact Prod.ext rfl hfits
    · rintro rfl
      rfl
  calc (busy.map Prod.fst).count name
      = busy.countP fun entry => entry.1 == name := by rw [List.count, List.countP_map]; rfl
    _ = busy.count (name, none) := List.countP_congr hslot
    _ ≤ 1 := List.nodup_iff_count_le_one.mp h.nodup _

/-! ### A read -/

namespace Environment

/-- What is left after a read, where `runs` are the slots whose recomputes it has started. -/
structure RunsOnce (env after : Environment π) (runs : List Entry) : Prop where
  /-- They are slots of registered dependencies, each once. -/
  fitting : env.ledger.Fitting runs
  counted : ∀ name, after.recomputesOf name =
    env.recomputesOf name + UInt64.ofNat ((runs.map Prod.fst).count name)
  scalar : ∀ name dependency, env.dependencies.get? name = some dependency →
    dependency.shape = .scalar → (runs.map Prod.fst).count name ≤ 1
  kept : ∀ entry value, env.statusOf entry.1 entry.2 = .valid value →
    entry ∉ runs ∧ after.statusOf entry.1 entry.2 = .valid value
  became : ∀ entry, ¬env.HasValue entry → after.HasValue entry → runs.count entry = 1

variable {meaning recalled : Meaning π} {env after : Environment π} {runs : List Entry}

theorem Completes.runsOnce {answer : Except Error Value} {read : Entry}
    (h : env.Completes meaning recalled after answer (env.ledger.work recalled read) runs) :
    env.RunsOnce after runs := by
  have hfitting : env.ledger.Fitting runs :=
    ⟨h.nodup, fun entry hentry =>
      Ledger.fits_of_mem_workWithin ((h.mem_iff entry).mp hentry).1⟩
  constructor
  case fitting => exact hfitting
  case counted => exact h.worked.count
  case scalar =>
    exact fun name dependency hname hshape =>
      hfitting.count_le_one (ledger_get?_of_get? hname) hshape
  case kept =>
    intro entry value hvalid
    have hentry : entry ∉ runs := fun hmem => ((h.mem_iff entry).mp hmem).2 ⟨value, hvalid⟩
    refine ⟨hentry, ?_⟩
    rw [statusOf_eq] at hvalid ⊢
    rw [h.worked.other entry hentry, hvalid]
  case became =>
    intro entry hbefore hafter
    refine List.count_eq_one_of_mem h.nodup (by_contra fun hentry => hbefore ?_)
    exact (h.worked.hasValue_of_not_mem hentry).mp hafter

end Environment

namespace Session

open Environment

/-- In a session of compiled definitions that assign only locals, each read has a report, and
recomputes no slot more than once and none that has a value. -/
theorem reads_run_once {session : Session} (h : ∀ step ∈ session.steps, step.localOnly = true) :
    ∃ reports env, session.run = some (reports, env) ∧ ∀ query : Query, ∃ report after,
      take (.read query.1 query.2) env = some (report, after) ∧
      env.RunsOnce after (started (history Procedure.dialogue env.cleared.depthLimit
        (Step.dialogue 0 (.read query.1 query.2)) env.cleared)) := by
  obtain ⟨reports, env, hrun, hbacked, hidle⟩ := exists_backed h
  refine ⟨reports, env, hrun, fun query => ?_⟩
  obtain ⟨answer, hanswer⟩ := Ledger.exists_read hbacked.quiet (query.entry env.context).1
    (query.entry env.context).2
  obtain ⟨report, after, htake, -, hcompletes⟩ := take_read hbacked hidle query hanswer
  exact ⟨report, after, htake, hcompletes.runsOnce⟩

/-- Two variables that read the same item and the same variable, and one that reads both of them and
then a variable that is not there. -/
def sharing : Session where
  config := .standard
  context := .root
  steps :=
    [.assign (.written "y") (.int 2), .define (.ofBody "s" none (.name "y") "") none,
      .define (.ofBody "v" (some "i") (.binary .multiply (.name "s") (.name "i")) "") none,
      .define (.ofBody "l" none
        (.binary .add (.item (.name "v") (.constant (.int 1))) (.name "s")) "") none,
      .define (.ofBody "r" none
        (.binary .add (.name "s") (.item (.name "v") (.constant (.int 1)))) "") none,
      .define (.ofBody "t" none
        (.binary .add (.name "u") (.binary .add (.name "l") (.name "r"))) "") none]

/-- The read fails, and what it was computed from is there. -/
theorem reads_run_once_sharing :
    ∃ reports env, sharing.run = some (reports, env) ∧ ∃ report after,
      take (.read (.written "t") none) env = some (report, after) ∧
      env.RunsOnce after [(⟨.root, "t"⟩, none), (⟨.root, "r"⟩, none), (⟨.root, "v"⟩, some 1),
        (⟨.root, "s"⟩, none), (⟨.root, "l"⟩, none)] := by
  have hlocal : ∀ step ∈ sharing.steps, step.localOnly = true := by
    rw [← List.all_eq_true]
    decide +kernel
  have hcomputed : (sharing.run.map fun outcome =>
      started (history Procedure.dialogue outcome.2.cleared.depthLimit
        (Step.dialogue 0 (.read (.written "t") none)) outcome.2.cleared)) =
      some [(⟨.root, "t"⟩, none), (⟨.root, "r"⟩, none), (⟨.root, "v"⟩, some 1),
        (⟨.root, "s"⟩, none), (⟨.root, "l"⟩, none)] := by
    decide +kernel
  obtain ⟨reports, env, hrun, hreads⟩ := reads_run_once hlocal
  obtain ⟨report, after, htake, hruns⟩ := hreads (.written "t", none)
  rw [hrun, Option.map_some, Option.some.injEq] at hcomputed
  rw [hcomputed] at hruns
  exact ⟨reports, env, hrun, report, after, htake, hruns⟩

end Session
end Memograph
