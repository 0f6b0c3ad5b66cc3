import Memograph.Proofs.History
import Memograph.Proofs.Transparency
import Memograph.Proofs.Workload

/-! Reads over kept values. A slot that has a value keeps it as long as there is nothing but
reading, whether or not the value is still what the procedure gives. So the procedures may be taken
for others, which recall a value where there is one, and the values are what these give from
scratch. Then a read runs the slots of its workload that have no value yet, each of them once; those
that have a value from scratch keep it, and the others are as empty as before. -/

namespace Memograph

variable {π α : Type}

/-- A slot of a name. -/
abbrev Entry := QualifiedName × Option Int64

/-- The dependency without what reads change of it. -/
def Dependency.blank (dependency : Dependency π) : Dependency π :=
  { dependency with slots := ∅, recomputes := 0 }

theorem Dependency.blank_finish (dependency : Dependency π) (slot : Option Int64) (began : Nat)
    (result : Except Error Value) :
    (dependency.finish slot began result).blank = dependency.blank := by
  unfold finish
  split
  · split <;> rfl
  · rfl

theorem Dependency.recomputes_finish (dependency : Dependency π) (slot : Option Int64)
    (began : Nat) (result : Except Error Value) :
    (dependency.finish slot began result).recomputes = dependency.recomputes := by
  unfold finish
  split
  · split <;> rfl
  · rfl

namespace Environment

/-! ### What a read changes -/

def slotOf (env : Environment π) (entry : Entry) : Slot :=
  match env.dependencies.get? entry.1 with
  | none => .fresh
  | some dependency => dependency.slotAt entry.2

def recomputesOf (env : Environment π) (name : QualifiedName) : UInt64 :=
  match env.dependencies.get? name with
  | none => 0
  | some dependency => dependency.recomputes

/-- Whether a slot has a value. -/
def HasValue (env : Environment π) (entry : Entry) : Prop :=
  ∃ value, env.statusOf entry.1 entry.2 = .valid value

section Slots

variable {env : Environment π} {name : QualifiedName} {dependency : Dependency π}

theorem statusOf_eq (env : Environment π) (name : QualifiedName) (slot : Option Int64) :
    env.statusOf name slot = (env.slotOf (name, slot)).status := by
  unfold statusOf slotOf
  cases env.dependencies.get? name <;> rfl

/-- Where one slot of a dependency is changed, the others are as before. -/
theorem slotOf_of_change {after : Environment π} {later : Dependency π} {slot : Option Int64}
    (h : env.dependencies.get? name = some dependency)
    (hafter : ∀ key, after.dependencies.get? key =
      if key = name then some later else env.dependencies.get? key)
    (hlater : ∀ index, index ≠ slot → later.slotAt index = dependency.slotAt index)
    {entry : Entry} (hentry : entry ≠ (name, slot)) : after.slotOf entry = env.slotOf entry := by
  obtain ⟨key, index⟩ := entry
  unfold slotOf
  rw [hafter]
  by_cases hkey : key = name
  · subst hkey
    rw [if_pos rfl, h]
    exact hlater index fun heq => hentry (heq ▸ rfl)
  · rw [if_neg hkey]

theorem slotOf_start (h : env.dependencies.get? name = some dependency) (slot : Option Int64)
    {entry : Entry} (hentry : entry ≠ (name, slot)) :
    (env.start name dependency slot).slotOf entry = env.slotOf entry := by
  refine slotOf_of_change h (get?_start env name dependency slot) (fun index hne => ?_) hentry
  rw [Dependency.slotAt_start, if_neg hne]

theorem slotOf_finish_of_ne (h : env.dependencies.get? name = some dependency)
    (slot : Option Int64) (began : Nat) (result : Except Error Value) {entry : Entry}
    (hentry : entry ≠ (name, slot)) :
    (env.finish name dependency.serial began slot result).slotOf entry = env.slotOf entry := by
  refine slotOf_of_change h (get?_finish h slot began result) (fun index hne => ?_) hentry
  rw [Dependency.slotAt_finish, if_neg hne]

theorem slotOf_finish (h : env.dependencies.get? name = some dependency) (slot : Option Int64)
    (result : Except Error Value) (entry : Entry) :
    (env.finish name dependency.serial dependency.epoch slot result).slotOf entry =
      if entry = (name, slot) then
        match result with
        | .ok value => ⟨.valid, some value⟩
        | .error _ => .fresh
      else env.slotOf entry := by
  by_cases hentry : entry = (name, slot)
  · subst hentry
    have hepoch : Dependency.sameEpoch dependency.epoch dependency.epoch = true :=
      beq_self_eq_true _
    unfold slotOf
    rw [get?_finish h, if_pos rfl, if_pos rfl]
    dsimp only
    rw [Dependency.slotAt_finish, if_pos rfl]
    cases result with
    | error cause => rfl
    | ok value => exact if_pos hepoch
  · rw [if_neg hentry, slotOf_finish_of_ne h slot _ result hentry]

theorem recomputesOf_start (h : env.dependencies.get? name = some dependency)
    (slot : Option Int64) (key : QualifiedName) :
    (env.start name dependency slot).recomputesOf key =
      env.recomputesOf key + if key = name then 1 else 0 := by
  unfold recomputesOf
  rw [get?_start]
  by_cases hkey : key = name
  · subst hkey
    rw [if_pos rfl, if_pos rfl, h]
    rfl
  · rw [if_neg hkey, if_neg hkey, UInt64.add_zero]

theorem recomputesOf_finish (h : env.dependencies.get? name = some dependency)
    (slot : Option Int64) (began : Nat) (result : Except Error Value) (key : QualifiedName) :
    (env.finish name dependency.serial began slot result).recomputesOf key =
      env.recomputesOf key := by
  unfold recomputesOf
  rw [get?_finish h]
  by_cases hkey : key = name
  · subst hkey
    rw [if_pos rfl, h]
    exact dependency.recomputes_finish slot began result
  · rw [if_neg hkey]

theorem hasValue_congr {after : Environment π} {entry : Entry}
    (h : after.slotOf entry = env.slotOf entry) : after.HasValue entry ↔ env.HasValue entry := by
  unfold HasValue
  rw [statusOf_eq, statusOf_eq, h]

theorem not_hasValue_of_uninitialized (h : env.dependencies.get? name = some dependency)
    {slot : Option Int64} (hstatus : dependency.status slot = .uninitialized) :
    ¬env.HasValue (name, slot) := by
  rintro ⟨value, hvalid⟩
  rw [statusOf_of_get? h, hstatus] at hvalid
  cases hvalid

end Slots

/-- What is left of running the procedures of some slots, where a ledger has values for some of
them: these have got their values, the others are empty, and each was counted. Nothing else is
different, except perhaps for what was noted. -/
structure Worked (meaning : Meaning π) (env after : Environment π) (work : List Entry) : Prop where
  rest : { after with dependencies := env.dependencies, journal := env.journal } = env
  blank : after.dependencies.mapValues Dependency.blank =
    env.dependencies.mapValues Dependency.blank
  count : ∀ name, after.recomputesOf name =
    env.recomputesOf name + UInt64.ofNat ((work.map Prod.fst).count name)
  other : ∀ entry ∉ work, after.slotOf entry = env.slotOf entry
  gave : ∀ entry ∈ work, ∀ fuel value, env.ledger.Gives meaning fuel entry.1 entry.2 value →
    after.slotOf entry = ⟨.valid, some value⟩
  failed : ∀ entry ∈ work, (∀ fuel, ¬env.ledger.Yields meaning fuel entry) →
    after.slotOf entry = .fresh

namespace Worked

variable {recalled : Meaning π} {env middle after : Environment π} {work more : List Entry}

theorem refl (env : Environment π) : env.Worked recalled env [] where
  rest := rfl
  blank := rfl
  count := fun _ => (UInt64.add_zero _).symm
  other := fun _ _ => rfl
  gave := fun _ hentry => absurd hentry List.not_mem_nil
  failed := fun _ hentry => absurd hentry List.not_mem_nil

theorem exists_started {name : QualifiedName} {dependency : Dependency π} {slot : Option Int64}
    (h : (env.start name dependency slot).Worked recalled after work) :
    ∃ later, after.dependencies.get? name = some later ∧
      later.procedure = dependency.procedure ∧ later.serial = dependency.serial ∧
      later.epoch = dependency.epoch := by
  have hblank := congrArg (Table.get? · name) h.blank
  simp only [Table.get?_mapValues, get?_start, if_true, Option.map_some] at hblank
  obtain ⟨later, hlater, heq⟩ := Option.map_eq_some_iff.mp hblank
  exact ⟨later, hlater,
    (congrArg (fun dependency : Dependency π => dependency.procedure) heq :),
    (congrArg Dependency.serial heq :), (congrArg Dependency.epoch heq :)⟩

theorem ledger (h : env.Worked recalled after work) : after.ledger = env.ledger := by
  have hdefinitions := congrArg
    (fun blank => blank.mapValues fun dependency => dependency.toRegistration) h.blank
  simp only [Table.mapValues_mapValues] at hdefinitions
  have hconfig : after.config = env.config := (congrArg Environment.config h.rest :)
  have hcontext : after.context = env.context := (congrArg Environment.context h.rest :)
  have hstored : after.stored = env.stored := (congrArg Environment.stored h.rest :)
  unfold Environment.ledger
  rw [hconfig, hcontext, hstored]
  exact congrArg (Ledger.mk env.config env.context env.stored) hdefinitions

theorem stack (h : env.Worked recalled after work) : after.stack = env.stack :=
  (congrArg Environment.stack h.rest :)

theorem underway (h : env.Worked recalled after work) : after.underway = env.underway := by
  unfold Environment.underway
  rw [h.stack]

theorem trans (h : env.Worked recalled middle work) (h' : middle.Worked recalled after more) :
    env.Worked recalled after (work ++ more) where
  rest := by
    have hmore := congrArg (fun after : Environment π =>
      { after with dependencies := env.dependencies, journal := env.journal }) h'.rest
    exact hmore.trans h.rest
  blank := h'.blank.trans h.blank
  count := by
    intro name
    rw [h'.count, h.count, List.map_append, List.count_append, UInt64.ofNat_add, UInt64.add_assoc]
  other := by
    intro entry hentry
    rw [List.mem_append, not_or] at hentry
    exact (h'.other entry hentry.2).trans (h.other entry hentry.1)
  gave := by
    intro entry hentry fuel value hgives
    by_cases hmore : entry ∈ more
    · exact h'.gave entry hmore fuel value (h.ledger.symm ▸ hgives)
    · have hwork := (List.mem_append.mp hentry).resolve_right hmore
      exact (h'.other entry hmore).trans (h.gave entry hwork fuel value hgives)
  failed := by
    intro entry hentry hnone
    by_cases hmore : entry ∈ more
    · exact h'.failed entry hmore (h.ledger.symm ▸ hnone)
    · have hwork := (List.mem_append.mp hentry).resolve_right hmore
      exact (h'.other entry hmore).trans (h.failed entry hwork hnone)

theorem hasValue_of_not_mem (h : env.Worked recalled after work) {entry : Entry}
    (hentry : entry ∉ work) : after.HasValue entry ↔ env.HasValue entry := by
  unfold HasValue
  simp only [statusOf_eq]
  rw [h.other entry hentry]

/-- A slot that was run has a value if it has one from scratch. -/
theorem hasValue_iff (h : env.Worked recalled after work) {entry : Entry} (hentry : entry ∈ work) :
    after.HasValue entry ↔ ∃ fuel, env.ledger.Yields recalled fuel entry := by
  unfold HasValue
  simp only [statusOf_eq]
  constructor
  · rintro ⟨value, hvalid⟩
    by_contra hnone
    rw [h.failed entry hentry (not_exists.mp hnone)] at hvalid
    cases hvalid
  · rintro ⟨fuel, value, hgives⟩
    rw [h.gave entry hentry fuel value hgives]
    exact ⟨value, rfl⟩

/-- A recompute adds its own slot to what its procedure has run. -/
theorem recompute {name : QualifiedName} {dependency : Dependency π} {slot : Option Int64}
    (hname : env.dependencies.get? name = some dependency)
    (h : (env.start name dependency slot).Worked recalled middle work)
    (hidle : (name, slot) ∉ work) {whole : Except Error Value}
    (hgave : ∀ fuel value, env.ledger.Gives recalled fuel name slot value → whole = .ok value)
    (hfailed : (∀ fuel, ¬env.ledger.Yields recalled fuel (name, slot)) →
      ∃ cause, whole = .error cause) :
    env.Worked recalled (middle.finish name dependency.serial dependency.epoch slot whole)
      ((name, slot) :: work) := by
  obtain ⟨later, hlater, -, hserial, hepoch⟩ := h.exists_started
  have hledger : (env.start name dependency slot).ledger = env.ledger := ledger_start hname slot
  have hslot := slotOf_finish hlater slot whole
  rw [← hserial, ← hepoch]
  constructor
  case rest =>
    rw [finish_eq hlater]
    exact congrArg (fun e : Environment π => { e with
      stack := e.stack.tail
      dependencies := env.dependencies
      journal := env.journal }) h.rest
  case blank =>
    rw [finish_eq hlater]
    dsimp only
    rw [Table.mapValues_insert_of_eq hlater (later.blank_finish slot _ whole), h.blank]
    exact Table.mapValues_insert_of_eq hname rfl
  case count =>
    intro key
    rw [recomputesOf_finish hlater, h.count, recomputesOf_start hname, List.map_cons,
      List.count_cons, UInt64.ofNat_add, UInt64.add_assoc]
    congr 1
    rw [UInt64.add_comm]
    congr 1
    by_cases hkey : key = name
    · simp [hkey]
    · simp [hkey, Ne.symm hkey]
  case other =>
    intro entry hentry
    rw [List.mem_cons, not_or] at hentry
    rw [hslot, if_neg hentry.1, h.other entry hentry.2, slotOf_start hname slot hentry.1]
  case gave =>
    intro entry hentry fuel value hgives
    rw [hslot]
    rcases List.mem_cons.mp hentry with rfl | hwork
    · rw [if_pos rfl, hgave fuel value hgives]
    · rw [if_neg (ne_of_mem_of_not_mem hwork hidle)]
      exact h.gave entry hwork fuel value (hledger.symm ▸ hgives)
  case failed =>
    intro entry hentry hnone
    rw [hslot]
    rcases List.mem_cons.mp hentry with rfl | hwork
    · obtain ⟨cause, rfl⟩ := hfailed hnone
      rw [if_pos rfl]
    · rw [if_neg (ne_of_mem_of_not_mem hwork hidle)]
      exact h.failed entry hwork (hledger.symm ▸ hnone)

end Worked

/-! ### Environments over kept values -/

/-- Whether the values of slots are what procedures that recall them give from scratch, and with
each value come those of its workload. -/
structure Backed (meaning recalled : Meaning π) (env : Environment π) : Prop where
  regular : env.Regular meaning
  quiet : env.ledger.Quiet recalled
  balanced : env.Balanced
  recalls : ∀ name dependency slot, env.dependencies.get? name = some dependency →
    ¬env.HasValue (name, slot) →
      recalled dependency.procedure slot = meaning dependency.procedure slot
  warranted : env.Warranted recalled
  thorough : ∀ name dependency slot, env.dependencies.get? name = some dependency →
    env.HasValue (name, slot) → ∀ fuel result,
      (recalled dependency.procedure slot).hold
        (env.ledger.readWithin recalled fuel [(name, slot)]) = some (.ok result) →
      ∀ entry ∈ (recalled dependency.procedure slot).workload
          (env.ledger.readWithin recalled fuel [(name, slot)])
          (env.ledger.workWithin recalled fuel [(name, slot)]),
        env.HasValue entry

variable {meaning recalled : Meaning π} {env middle after : Environment π} {name : QualifiedName}
  {dependency : Dependency π} {index slot : Option Int64}

theorem hasValue_start_iff (hname : env.dependencies.get? name = some dependency)
    (hstatus : dependency.status slot = .uninitialized) (entry : Entry) :
    (env.start name dependency slot).HasValue entry ↔ env.HasValue entry := by
  unfold HasValue
  simp only [statusOf_start hname]
  by_cases hentry : entry.1 = name ∧ entry.2 = slot
  · simp [hentry, statusOf_of_get? hname, hstatus]
  · simp [hentry]

theorem Backed.start (h : env.Backed meaning recalled)
    (hname : env.dependencies.get? name = some dependency)
    (hslot : dependency.shape.slot? index = some slot)
    (hstatus : dependency.status slot = .uninitialized) :
    (env.start name dependency slot).Backed meaning recalled := by
  have hsame := sameDependencies_start hname slot
  have hvalue := hasValue_start_iff hname hstatus
  constructor
  case regular => exact hsame.regular h.regular
  case quiet =>
    rw [ledger_start hname]
    exact h.quiet
  case balanced => exact h.balanced.start hname (Shape.fits_of_slot? hslot) hstatus
  case recalls =>
    intro key started position hkey hnone
    obtain ⟨first, hfirst, heq, -⟩ := hsame.symm.get?_eq_some hkey
    rw [hvalue] at hnone
    rw [← heq]
    exact h.recalls key first position hfirst hnone
  case warranted => exact h.warranted.start hname slot
  case thorough =>
    intro key started position hkey hkeyvalue
    obtain ⟨first, hfirst, heq, -⟩ := hsame.symm.get?_eq_some hkey
    rw [hvalue] at hkeyvalue
    rw [← heq, ledger_start hname]
    simp only [hvalue]
    exact h.thorough key first position hfirst hkeyvalue

/-- A recompute that ends keeps the environment backed, if with the value of its slot come those of
its workload. -/
theorem Backed.finish (h : middle.Backed meaning recalled)
    (hname : middle.dependencies.get? name = some dependency)
    (hrunning : middle.statusOf name slot = .evaluating) {whole : Except Error Value}
    (hgives : ∀ value, whole = .ok value →
      ∃ fuel, middle.ledger.Gives recalled fuel name slot value)
    (hwork : ∀ value, whole = .ok value → ∀ fuel result,
      (recalled dependency.procedure slot).hold
        (middle.ledger.readWithin recalled fuel [(name, slot)]) = some (.ok result) →
      ∀ entry ∈ (recalled dependency.procedure slot).workload
          (middle.ledger.readWithin recalled fuel [(name, slot)])
          (middle.ledger.workWithin recalled fuel [(name, slot)]),
        middle.HasValue entry)
    (hbalanced : (middle.finish name dependency.serial dependency.epoch slot whole).Balanced) :
    (middle.finish name dependency.serial dependency.epoch slot whole).Backed meaning recalled := by
  have hsame := sameDependencies_finish hname slot dependency.epoch whole
  have hledger := ledger_finish hname slot dependency.epoch whole
  have hslot := slotOf_finish hname slot whole
  have hempty : ¬middle.HasValue (name, slot) := by
    rintro ⟨value, hvalue⟩
    rw [hrunning] at hvalue
    cases hvalue
  have hother : ∀ entry, entry ≠ (name, slot) →
      ((middle.finish name dependency.serial dependency.epoch slot whole).HasValue entry ↔
        middle.HasValue entry) := by
    intro entry hentry
    unfold HasValue
    simp only [statusOf_eq]
    rw [hslot, if_neg hentry]
  have hkept : ∀ entry, middle.HasValue entry →
      (middle.finish name dependency.serial dependency.epoch slot whole).HasValue entry :=
    fun entry hvalue => (hother entry fun heq => hempty (heq ▸ hvalue)).mpr hvalue
  constructor
  case regular => exact hsame.regular h.regular
  case quiet =>
    rw [hledger]
    exact h.quiet
  case balanced => exact hbalanced
  case recalls =>
    intro key later position hkey hnone
    obtain ⟨first, hfirst, heq, -⟩ := hsame.symm.get?_eq_some hkey
    rw [← heq]
    exact h.recalls key first position hfirst fun hvalue => hnone (hkept _ hvalue)
  case warranted => exact h.warranted.finish hname slot _ hgives
  case thorough =>
    intro key later position hkey hvalue fuel result hhold entry hentry
    obtain ⟨first, hfirst, heq, -⟩ := hsame.symm.get?_eq_some hkey
    rw [← heq, hledger] at hhold hentry
    -- Either the slot is the one that has got its value, or it had its value before.
    refine hkept entry ?_
    by_cases hself : (key, position) = (name, slot)
    · obtain ⟨rfl, rfl⟩ := Prod.mk.inj hself
      obtain rfl : first = dependency := Option.some.inj (hfirst.symm.trans hname)
      obtain ⟨value, hvalid⟩ := hvalue
      rw [statusOf_eq, hslot, if_pos rfl] at hvalid
      cases whole with
      | error cause => cases hvalid
      | ok whole => exact hwork whole rfl fuel result hhold entry hentry
    · rw [hother _ hself] at hvalue
      exact h.thorough key first position hfirst hvalue fuel result hhold entry hentry

/-! ### Recomputes that begin -/

/-- The slots whose recomputes begin in some events, in their order. -/
def started (events : List (Event π)) : List Entry :=
  events.filterMap fun
    | .began launch => some (launch.name, launch.slot)
    | _ => none

section Starting

variable {inner : Dialogue π (Except Error Value) → Environment π → List (Event π)}
  {run : Runner π (Except Error Value)}

theorem started_append (before events : List (Event π)) :
    started (before ++ events) = started before ++ started events :=
  List.filterMap_append

theorem started_of_launch?_eq_none {request : Request π} (h : request.launch? env = none) :
    started (requestEvents inner run meaning request env) = [] := by
  rw [requestEvents, h]
  rfl

/-- A recompute begins with its own slot. -/
theorem started_of_launch? {request : Request π} {launch : Launch π}
    (h : request.launch? env = some launch) :
    started (requestEvents inner run meaning request env) = (launch.name, launch.slot) ::
      started (inner (launch.dialogue meaning) (launch.start env)) := by
  rw [requestEvents, h]
  change (launch.name, launch.slot) :: started (inner _ _ ++ _) = _
  rw [started_append]
  cases run (launch.dialogue meaning) (launch.start env) <;> exact congrArg _ (List.append_nil _)

end Starting

/-! ### Reads -/

/-- Whether a run ends in an environment with an answer, having run the slots of a workload that had
no value, each of them once. An answer that is a value leaves a value in all of them. -/
structure Completes (meaning recalled : Meaning π) (env after : Environment π)
    (answer : Except Error α) (work done : List Entry) : Prop where
  worked : env.Worked recalled after done
  backed : after.Backed meaning recalled
  nodup : done.Nodup
  mem_iff : ∀ entry, entry ∈ done ↔ entry ∈ work ∧ ¬env.HasValue entry
  idle : ∀ entry ∈ done, entry ∉ env.underway
  kept : ∀ value, answer = .ok value → ∀ entry ∈ done, after.HasValue entry

/-- A run with nothing to do. -/
theorem Backed.completes (h : env.Backed meaning recalled) (answer : Except Error α)
    {work : List Entry} (hwork : ∀ entry ∈ work, env.HasValue entry) :
    env.Completes meaning recalled env answer work [] where
  worked := .refl env
  backed := h
  nodup := List.nodup_nil
  mem_iff := fun entry => iff_of_false List.not_mem_nil fun hmem => hmem.2 (hwork entry hmem.1)
  idle := fun _ hentry => absurd hentry List.not_mem_nil
  kept := fun _ _ _ hentry => absurd hentry List.not_mem_nil

namespace Completes

variable {value : Value} {answer : Except Error α} {work more done last : List Entry}

theorem hasValue (h : env.Completes meaning recalled after answer work done) {entry : Entry}
    (hvalue : env.HasValue entry) : after.HasValue entry := by
  have hentry : entry ∉ done := fun hmem => ((h.mem_iff entry).mp hmem).2 hvalue
  exact (h.worked.hasValue_of_not_mem hentry).mpr hvalue

/-- A run goes on after a value. -/
theorem append
    (h : env.Completes meaning recalled middle (.ok value : Except Error Value) work done)
    (h' : middle.Completes meaning recalled after answer more last) :
    env.Completes meaning recalled after answer (work ++ more) (done ++ last) where
  worked := h.worked.trans h'.worked
  backed := h'.backed
  nodup := by
    refine List.nodup_append.mpr ⟨h.nodup, h'.nodup, fun entry hdone other hlast heq => ?_⟩
    subst heq
    exact ((h'.mem_iff entry).mp hlast).2 (h.kept value rfl entry hdone)
  mem_iff := by
    intro entry
    rw [List.mem_append, List.mem_append, h.mem_iff, h'.mem_iff]
    constructor
    · rintro (⟨hwork, hnone⟩ | ⟨hmore, hnone⟩)
      · exact ⟨Or.inl hwork, hnone⟩
      · exact ⟨Or.inr hmore, fun hvalue => hnone (h.hasValue hvalue)⟩
    · rintro ⟨hwork | hmore, hnone⟩
      · exact Or.inl ⟨hwork, hnone⟩
      · by_cases hdone : entry ∈ done
        · exact Or.inl ((h.mem_iff entry).mp hdone)
        · refine Or.inr ⟨hmore, ?_⟩
          rwa [h.worked.hasValue_of_not_mem hdone]
  idle := by
    intro entry hentry
    rcases List.mem_append.mp hentry with hdone | hlast
    · exact h.idle entry hdone
    · rw [← h.worked.underway]
      exact h'.idle entry hlast
  kept := by
    intro result hresult entry hentry
    rcases List.mem_append.mp hentry with hdone | hlast
    · exact h'.hasValue (h.kept value rfl entry hdone)
    · exact h'.kept result hresult entry hlast

end Completes

/-- A dialogue that only reads runs what its reads run, if each of these completes. -/
theorem Backed.converse {depth : Nat}
    (hread : ∀ {env : Environment π} (name : QualifiedName) (index : Option Int64)
      {answer : Except Error Value}, env.Backed meaning recalled →
      env.Awaits recalled (.request (.read name index)) →
      env.ledger.readWithin recalled depth env.underway name index = some answer →
        ∃ after, env.read (nested meaning depth) meaning name index = some (answer, after) ∧
          env.Completes meaning recalled after answer
            (env.ledger.workWithin recalled depth env.underway name index)
            (started (requestEvents (innerHistory meaning depth) (nested meaning depth) meaning
              (.read name index) env)))
    {names : List QualifiedName} {d : Dialogue π (Except Error α)} (hd : d.Reading names)
    (henv : env.Backed meaning recalled) (hawaits : env.Awaits recalled d)
    {result : Except Error α}
    (h : d.hold (env.ledger.readWithin recalled depth env.underway) = some result) :
    ∃ after, converse (respond (nested meaning depth) meaning) d env = some (result, after) ∧
      env.Completes meaning recalled after result
        (d.workload (env.ledger.readWithin recalled depth env.underway)
          (env.ledger.workWithin recalled depth env.underway))
        (started (events (innerHistory meaning depth) (nested meaning depth) meaning d env)) := by
  induction hd generalizing env with
  | done other =>
      cases h
      exact ⟨env, rfl, henv.completes _ fun _ hentry => absurd hentry List.not_mem_nil⟩
  | @read name index next hname hfailed hnext ih =>
      obtain ⟨answer, hanswer, hrest⟩ := Option.bind_eq_some_iff.mp h
      obtain ⟨middle, hreply, hfirst⟩ := hread name index henv (hawaits.read hfailed) hanswer
      have hrespond : respond (nested meaning depth) meaning (.read name index) env =
          some (answer, middle) := hreply
      rw [converse_read hreply, Dialogue.workload_read hanswer, events_ask hrespond, started_append]
      cases answer with
      | error cause =>
          rw [hfailed] at hrest ⊢
          cases hrest
          rw [Dialogue.workload, List.append_nil, events, started, started, List.filterMap_nil,
            List.append_nil]
          · exact ⟨middle, rfl, hfirst.worked, hfirst.backed, hfirst.nodup, hfirst.mem_iff,
              hfirst.idle, fun _ hvalue => by cases hvalue⟩
          · intro other position rest hdone
            cases hdone
      | ok value =>
          have hledger := hfirst.worked.ledger
          have hunderway := hfirst.worked.underway
          have hlater := hawaits.rest hfailed henv.quiet hanswer hunderway hledger
          rw [← hledger, ← hunderway] at hrest
          obtain ⟨after, hrun, hlast⟩ := ih value hfirst.backed hlater hrest
          rw [hledger, hunderway] at hlast
          exact ⟨after, hrun, hfirst.append hlast⟩

/-- A value that is met inside of recomputes has a workload of values. -/
theorem Backed.hasValue_workload (henv : env.Backed meaning recalled)
    (hawaits : env.Awaits recalled (.request (.read name index)))
    (hname : env.dependencies.get? name = some dependency)
    (hslot : dependency.shape.slot? index = some slot) {value : Value}
    (hstatus : dependency.status slot = .valid value) {depth : Nat} {whole : Except Error Value}
    (hwhole : (recalled dependency.procedure slot).hold
      (env.ledger.readWithin recalled depth ((name, slot) :: env.underway)) = some whole) :
    whole = .ok value ∧ ∀ entry ∈ (recalled dependency.procedure slot).workload
        (env.ledger.readWithin recalled depth ((name, slot) :: env.underway))
        (env.ledger.workWithin recalled depth ((name, slot) :: env.underway)),
      env.HasValue entry := by
  have hbody := henv.quiet name _ (ledger_get?_of_get? hname) slot
  have hsubset : [(name, slot)] ⊆ (name, slot) :: env.underway :=
    List.cons_subset_cons _ (List.nil_subset _)
  obtain ⟨-, fuel, hhold⟩ :=
    henv.warranted.hold_of_valid henv.quiet hawaits hname hslot hstatus
  obtain rfl : whole = .ok value := Ledger.hold_readWithin_unique hwhole hhold
  have halone := Ledger.hold_of_subset henv.quiet hbody hsubset hwhole
  refine ⟨rfl, ?_⟩
  rw [Ledger.workload_eq henv.quiet hbody hsubset hwhole halone]
  refine henv.thorough name dependency slot hname ⟨value, ?_⟩ depth value halone
  rw [statusOf_of_get? hname, hstatus]

section Recompute

variable {depth : Nat} {whole : Except Error Value} {done : List Entry}

/-- A recompute that has a value leaves it with the values of the workload. -/
theorem Completes.backed_finish (henv : env.Backed meaning recalled)
    (hname : env.dependencies.get? name = some dependency)
    (hstatus : dependency.status slot = .uninitialized)
    (hwhole : (recalled dependency.procedure slot).hold
      (env.ledger.readWithin recalled depth ((name, slot) :: env.underway)) = some whole)
    (hevolves : (env.start name dependency slot).Evolves middle)
    (h : (env.start name dependency slot).Completes meaning recalled middle whole
      ((recalled dependency.procedure slot).workload
        (env.ledger.readWithin recalled depth ((name, slot) :: env.underway))
        (env.ledger.workWithin recalled depth ((name, slot) :: env.underway))) done) :
    (middle.finish name dependency.serial dependency.epoch slot whole).Backed meaning recalled := by
  have hdefined := ledger_get?_of_get? hname
  have hledger : middle.ledger = env.ledger := h.worked.ledger.trans (ledger_start hname slot)
  obtain ⟨later, hlater, hprocedure, hserial, hepoch⟩ := h.worked.exists_started
  rw [← hserial, ← hepoch]
  refine h.backed.finish hlater ?_ (fun value hok => ⟨depth, ?_⟩) ?_ ?_
  · rw [hevolves.running, statusOf_start hname, if_pos ⟨rfl, rfl⟩]
  · subst hok
    rw [hledger]
    exact Ledger.gives_of_hold henv.quiet hdefined hwhole
  · rintro value rfl fuel result hhold entry hentry
    have hbody := henv.quiet name _ hdefined slot
    have hsubset : [(name, slot)] ⊆ (name, slot) :: env.underway :=
      List.cons_subset_cons _ (List.nil_subset _)
    rw [hledger, hprocedure] at hhold hentry
    rw [← Ledger.workload_eq henv.quiet hbody hsubset hwhole hhold] at hentry
    -- What had a value before the procedure ran keeps it, and the rest was run by it.
    by_cases hbefore : (env.start name dependency slot).HasValue entry
    · exact h.hasValue hbefore
    · exact h.kept value rfl entry ((h.mem_iff entry).mpr ⟨hentry, hbefore⟩)
  · rw [hserial, hepoch]
    exact (hevolves.recompute hname hstatus _ whole).balanced henv.balanced

/-- A recompute completes, if its procedure does. -/
theorem Completes.recompute (henv : env.Backed meaning recalled)
    (hawaits : env.Awaits recalled (.request (.read name index)))
    (hname : env.dependencies.get? name = some dependency)
    (hslot : dependency.shape.slot? index = some slot)
    (hstatus : dependency.status slot = .uninitialized)
    (hwhole : (recalled dependency.procedure slot).hold
      (env.ledger.readWithin recalled depth ((name, slot) :: env.underway)) = some whole)
    (hevolves : (env.start name dependency slot).Evolves middle)
    (h : (env.start name dependency slot).Completes meaning recalled middle whole
      ((recalled dependency.procedure slot).workload
        (env.ledger.readWithin recalled depth ((name, slot) :: env.underway))
        (env.ledger.workWithin recalled depth ((name, slot) :: env.underway))) done) :
    env.Completes meaning recalled
      (middle.finish name dependency.serial dependency.epoch slot whole) whole
      ((name, slot) :: (recalled dependency.procedure slot).workload
        (env.ledger.readWithin recalled depth ((name, slot) :: env.underway))
        (env.ledger.workWithin recalled depth ((name, slot) :: env.underway)))
      ((name, slot) :: done) := by
  have hidle : (name, slot) ∉ done := fun hmem => h.idle _ hmem List.mem_cons_self
  have hyields : ∀ value, whole = .ok value →
      env.ledger.Yields recalled depth (name, slot) := by
    rintro value rfl
    exact ⟨value, Ledger.gives_of_hold henv.quiet (ledger_get?_of_get? hname) hwhole⟩
  have hworked :
      env.Worked recalled (middle.finish name dependency.serial dependency.epoch slot whole)
        ((name, slot) :: done) := by
    refine h.worked.recompute hname hidle
      (fun fuel value => hawaits.eq_of_gives henv.quiet hname hslot hwhole) fun hnone => ?_
    cases whole with
    | error cause => exact ⟨cause, rfl⟩
    | ok value => exact absurd (hyields value rfl) (hnone depth)
  constructor
  case worked => exact hworked
  case backed => exact h.backed_finish henv hname hstatus hwhole hevolves
  case nodup => exact List.nodup_cons.mpr ⟨hidle, h.nodup⟩
  case mem_iff =>
    intro entry
    have hempty := not_hasValue_of_uninitialized hname hstatus
    rw [List.mem_cons, List.mem_cons, h.mem_iff, hasValue_start_iff hname hstatus]
    constructor
    · rintro (rfl | ⟨hwork, hnone⟩)
      · exact ⟨Or.inl rfl, hempty⟩
      · exact ⟨Or.inr hwork, hnone⟩
    · rintro ⟨hself | hwork, hnone⟩
      · exact Or.inl hself
      · exact Or.inr ⟨hwork, hnone⟩
  case idle =>
    intro entry hentry hbusy
    rcases List.mem_cons.mp hentry with rfl | hdone
    · rw [← henv.balanced.running, statusOf_of_get? hname, hstatus] at hbusy
      cases hbusy
    · exact h.idle entry hdone (List.mem_cons_of_mem _ hbusy)
  case kept =>
    intro value hok entry hentry
    rw [hworked.hasValue_iff hentry]
    rcases List.mem_cons.mp hentry with rfl | hdone
    · exact ⟨depth, hyields value hok⟩
    · have hvalue := h.kept value hok entry hdone
      rwa [h.worked.hasValue_iff hdone, ledger_start hname] at hvalue

end Recompute

/-- A part of what a run answers is answered with the same work. -/
theorem Completes.bind {whole : Except Error Value} {work done : List Entry}
    (h : env.Completes meaning recalled after whole work done)
    (f : Value → Except Error Value) :
    env.Completes meaning recalled after (whole.bind f) work done := by
  refine ⟨h.worked, h.backed, h.nodup, h.mem_iff, h.idle, fun value hvalue => ?_⟩
  cases whole with
  | error cause => cases hvalue
  | ok first => exact h.kept first rfl

/-- A read answers as the recalling procedures do from scratch. Of its workload it runs the slots
that have no value. -/
theorem Backed.read (depth : Nat) (name : QualifiedName) (index : Option Int64)
    {answer : Except Error Value} (henv : env.Backed meaning recalled)
    (hawaits : env.Awaits recalled (.request (.read name index)))
    (h : env.ledger.readWithin recalled depth env.underway name index = some answer) :
    ∃ after, env.read (nested meaning depth) meaning name index = some (answer, after) ∧
      env.Completes meaning recalled after answer
        (env.ledger.workWithin recalled depth env.underway name index)
        (started (requestEvents (innerHistory meaning depth) (nested meaning depth) meaning
          (.read name index) env)) := by
  induction depth generalizing env name index answer with
  | zero => cases h
  | succ depth ih =>
      cases hname : env.dependencies.get? name with
      | none =>
          have hnone := ledger_get?_eq_none_iff.mpr hname
          rw [Ledger.readWithin_of_undefined hnone] at h
          cases h
          rw [Ledger.workWithin_of_undefined hnone, started_of_launch?_eq_none]
          · exact ⟨env, read_of_unregistered hname index, henv.completes _ nofun⟩
          · simp [Request.launch?, hname]
      | some dependency =>
          have hdefined := ledger_get?_of_get? hname
          cases hslot : dependency.shape.slot? index with
          | none =>
              rw [Ledger.readWithin_of_unindexed hdefined hslot] at h
              cases h
              rw [Ledger.workWithin_of_unindexed hdefined hslot, started_of_launch?_eq_none]
              · exact ⟨env, read_of_unindexed hname hslot, henv.completes _ nofun⟩
              · simp [Request.launch?, hname, hslot]
          | some slot =>
              rw [read_of_slot? hname hslot]
              by_cases hbusy : (name, slot) ∈ env.underway
              · have hstatus : dependency.status slot = .evaluating := by
                  rw [← statusOf_of_get? hname, henv.balanced.running]
                  exact hbusy
                have hnone := launch?_read_of_status hname hslot fun hempty => by
                  rw [hstatus] at hempty
                  cases hempty
                rw [Ledger.readWithin_of_busy hdefined hslot hbusy] at h
                cases h
                rw [Ledger.workWithin_of_busy hdefined hslot hbusy, compute, hstatus,
                  started_of_launch?_eq_none hnone]
                dsimp only
                rw [chain_of_mem_underway hbusy]
                exact ⟨env, rfl, henv.completes _ nofun⟩
              · rw [Ledger.readWithin_of_idle hdefined hslot hbusy, Option.map_eq_some_iff] at h
                obtain ⟨whole, hwhole, rfl⟩ := h
                rw [Ledger.workWithin_of_idle hdefined hslot hbusy]
                cases hstatus : dependency.status slot with
                | evaluating =>
                    rw [← statusOf_of_get? hname, henv.balanced.running] at hstatus
                    exact absurd hstatus hbusy
                | valid value =>
                    -- Nothing is run, and by thoroughness nothing of the workload is missing.
                    obtain ⟨rfl, hwork⟩ :=
                      henv.hasValue_workload hawaits hname hslot hstatus hwhole
                    have hnone := launch?_read_of_status hname hslot fun hempty => by
                      rw [hstatus] at hempty
                      cases hempty
                    rw [started_of_launch?_eq_none hnone]
                    refine ⟨env, ?_, henv.completes _ (List.forall_mem_cons.mpr ⟨?_, hwork⟩)⟩
                    · rw [compute, hstatus]
                      rfl
                    · exact ⟨value, by rw [statusOf_of_get? hname, hstatus]⟩
                | uninitialized =>
                    have hempty := not_hasValue_of_uninitialized hname hstatus
                    have hstart := henv.start hname hslot hstatus
                    have hbegun := hwhole
                    rw [← ledger_start hname slot] at hbegun
                    obtain ⟨middle, hrun, hinner⟩ :=
                      hstart.converse ih (henv.quiet name _ hdefined slot)
                        (hawaits.start henv.quiet hname hslot) hbegun
                    rw [ledger_start hname] at hinner
                    have hdialogue : (Launch.mk name dependency slot).dialogue meaning =
                        recalled dependency.procedure slot :=
                      (henv.recalls name dependency slot hname hempty).symm
                    rw [started_of_launch? (launch?_read_of_uninitialized hname hslot hstatus),
                      hdialogue]
                    rw [henv.recalls name dependency slot hname hempty,
                      ← runWithin_eq_converse] at hrun
                    have hevolves := (steady_evolves meaning).nested (depth + 1) henv.regular hname
                      hrun
                    refine ⟨_, ?_, (Completes.recompute henv hawaits hname hslot hstatus hwhole
                      hevolves hinner).bind _⟩
                    rw [compute, hstatus]
                    dsimp only
                    rw [nested, hrun]
                    rfl

end Environment
end Memograph
