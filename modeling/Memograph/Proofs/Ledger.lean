import Memograph.Proofs.Nesting

/-! Answers without caches. A ledger has the stored values and the definitions of an environment
and no values of dependencies. A read from it runs the procedures of all dependencies on the way
from scratch and keeps nothing but a list of the slots in progress; a slot in progress that is read
again is a cycle. Every read has an answer. A value that is read depends neither on what else was in
progress nor on what it is not computed from. Beside the answer of a read stands its workload. -/

namespace Memograph

variable {π α : Type}

/-- The slots in progress, innermost first. -/
abbrev Busy := List (QualifiedName × Option Int64)

/-- The names of the slots in progress from a slot inwards, and the name of the slot once more. -/
def Busy.cycle (busy : Busy) (name : QualifiedName) (slot : Option Int64) : List QualifiedName :=
  name :: ((busy.takeWhile fun entry => entry ≠ (name, slot)).map Prod.fst).reverse ++ [name]

/-- What answers are about: stored values, and definitions, with the context and configuration for
further ones. -/
structure Ledger (π : Type) where
  config : Config
  context : ContextPath
  stored : Table QualifiedName Value
  definitions : Table QualifiedName (Registration π)

namespace Ledger

/-- Sets the stored value of a variable. -/
def assign (ledger : Ledger π) (name : QualifiedName) (value : Value) : Ledger π :=
  { ledger with stored := ledger.stored.insert name value }

/-- Defines a variable, unless it is defined and the configuration has such definitions refused. -/
def register (ledger : Ledger π) (name : QualifiedName) (registration : Registration π) :
    Ledger π :=
  if ledger.definitions.contains name ∧ ledger.config.redefinition = .reject then ledger
  else { ledger with definitions := ledger.definitions.insert name registration }

end Ledger

namespace Dialogue

/-- Holds a dialogue that only reads; no other request has a reply. -/
def hold (read : QualifiedName → Option Int64 → Option (Except Error Value)) :
    Dialogue π α → Option α
  | .done result => some result
  | .ask (.read name index) next => (read name index).bind fun answer => hold read (next answer)
  | .ask _ _ => none

/-- The workload of a dialogue that only reads, from the answers and the workloads of its reads. -/
def workload (read : QualifiedName → Option Int64 → Option (Except Error Value))
    (work : QualifiedName → Option Int64 → Busy) : Dialogue π α → Busy
  | .ask (.read name index) next =>
      work name index ++
        match read name index with
        | none => []
        | some answer => workload read work (next answer)
  | _ => []

/-- A dialogue that only reads, and only some names, and ends with the first read that fails. -/
inductive Reading (names : List QualifiedName) : Dialogue π (Except Error α) → Prop
  | done (result : Except Error α) : Reading names (.done result)
  | read {name : QualifiedName} {index : Option Int64}
      {next : Except Error Value → Dialogue π (Except Error α)} (hname : name ∈ names)
      (hfailed : ∀ cause, next (.error cause) = .done (.error cause))
      (hnext : ∀ value, Reading names (next (.ok value))) :
      Reading names (.ask (.read name index) next)

theorem Follows.reading {footprint : Footprint} {post : List QualifiedName → α → Prop}
    {asked : List QualifiedName} {d : Dialogue π (Except Error α)}
    (hd : d.Follows footprint post asked) (hassigns : footprint.assigns = [])
    (hstores : footprint.stores = []) : d.Reading footprint.reads := by
  induction hd with
  | failed cause => exact .done _
  | done hpost => exact .done _
  | read hname hfailed hnext ih => exact .read hname hfailed ih
  | assign hname hrest ih =>
      rw [hassigns] at hname
      cases hname
  | store hname hrest ih =>
      rw [hstores] at hname
      cases hname

theorem Reading.subset {names names' : List QualifiedName} {d : Dialogue π (Except Error α)}
    (h : d.Reading names) (hnames : names ⊆ names') : d.Reading names' := by
  induction h with
  | done result => exact .done result
  | read hname hfailed hnext ih => exact .read (hnames hname) hfailed ih

section Holding

variable {read read' : QualifiedName → Option Int64 → Option (Except Error Value)}

theorem hold_mono
    (hread : ∀ name index answer, read name index = some answer → read' name index = some answer)
    {d : Dialogue π α} {result : α} (h : d.hold read = some result) :
    d.hold read' = some result := by
  induction d with
  | done other => exact h
  | ask request next ih =>
      cases request with
      | read name index =>
          obtain ⟨answer, hanswer, hrest⟩ := Option.bind_eq_some_iff.mp h
          rw [hold, hread name index answer hanswer, Option.bind_some]
          exact ih answer hrest
      | _ => cases h

variable {names : List QualifiedName} {d : Dialogue π (Except Error α)}

theorem hold_request (name : QualifiedName) (index : Option Int64) :
    (Dialogue.request (.read name index) : Dialogue π (Except Error Value)).hold read =
      read name index := by
  rw [request, hold]
  exact Option.bind_fun_some _

theorem hold_read_eq_ok {name : QualifiedName} {index : Option Int64}
    {next : Except Error Value → Dialogue π (Except Error α)} {result : α}
    (hfailed : ∀ cause, next (.error cause) = .done (.error cause))
    (h : (Dialogue.ask (.read name index) next).hold read = some (.ok result)) :
    ∃ value, read name index = some (.ok value) ∧
      (next (.ok value)).hold read = some (.ok result) := by
  obtain ⟨answer, hanswer, hrest⟩ := Option.bind_eq_some_iff.mp h
  cases answer with
  | error cause =>
      rw [hfailed] at hrest
      cases hrest
  | ok value => exact ⟨value, hanswer, hrest⟩

/-- A success takes no more than the successes of reads. -/
theorem Reading.hold_ok (hd : d.Reading names) {result : α}
    (hread : ∀ name ∈ names, ∀ index value, read name index = some (.ok value) →
      read' name index = some (.ok value))
    (h : d.hold read = some (.ok result)) : d.hold read' = some (.ok result) := by
  induction hd with
  | done other => exact h
  | @read name index next hname hfailed hnext ih =>
      obtain ⟨value, hvalue, hrest⟩ := hold_read_eq_ok hfailed h
      rw [hold, hread name hname index value hvalue, Option.bind_some]
      exact ih value hrest

theorem Reading.exists_hold (hd : d.Reading names)
    (hread : ∀ name ∈ names, ∀ index, ∃ answer, read name index = some answer) :
    ∃ result, d.hold read = some result := by
  induction hd with
  | done result => exact ⟨result, rfl⟩
  | @read name index next hname hfailed hnext ih =>
      obtain ⟨answer, hanswer⟩ := hread name hname index
      rw [hold, hanswer, Option.bind_some]
      cases answer with
      | error cause =>
          rw [hfailed]
          exact ⟨.error cause, rfl⟩
      | ok value => exact ih value

end Holding

end Dialogue

namespace Ledger

/-! ### Reading from scratch -/

/-- The stored value of a variable, or one of its items. -/
def readStored (ledger : Ledger π) (name : QualifiedName) (index : Option Int64) :
    Except Error Value :=
  match ledger.stored.get? name, index with
  | none, _ => .error (.undefinedVariable name)
  | some value, none => .ok value
  | some value, some position => value.select position

/-- The value of a variable, or of one of its items, with procedures nested less than `fuel` deep:
the stored value where the variable is not defined, and otherwise what its procedure gives now. -/
def readWithin (meaning : Meaning π) (ledger : Ledger π) :
    (fuel : Nat) → Busy → QualifiedName → Option Int64 → Option (Except Error Value)
  | 0, _, _, _ => none
  | fuel + 1, busy, name, index =>
    match ledger.definitions.get? name with
    | none => some (ledger.readStored name index)
    | some registration =>
      match registration.shape.slot? index with
      | none => some (.error (.indexRequired name))
      | some slot =>
        if (name, slot) ∈ busy then
          some (.error (.circularDependency name (busy.cycle name slot)))
        else
          ((meaning registration.procedure slot).hold
            (readWithin meaning ledger fuel ((name, slot) :: busy))).map
              fun whole => whole.bind (registration.shape.part index)

/-- The workload of a read with procedures nested less than `fuel` deep. -/
def workWithin (meaning : Meaning π) (ledger : Ledger π) :
    (fuel : Nat) → Busy → QualifiedName → Option Int64 → Busy
  | 0, _, _, _ => []
  | fuel + 1, busy, name, index =>
    match ledger.definitions.get? name with
    | none => []
    | some registration =>
      match registration.shape.slot? index with
      | none => []
      | some slot =>
        if (name, slot) ∈ busy then []
        else (name, slot) :: (meaning registration.procedure slot).workload
          (ledger.readWithin meaning fuel ((name, slot) :: busy))
          (workWithin meaning ledger fuel ((name, slot) :: busy))

/-- How deep procedures may nest. A slot in progress is not run again, a scalar dependency has one
slot and an itemwise one at most `2 ^ 64`. -/
def limit (ledger : Ledger π) : Nat := UInt64.size * (ledger.definitions.size + 1)

/-- The value of a variable, or of one of its items, while nothing is in progress. -/
def read (meaning : Meaning π) (ledger : Ledger π) (name : QualifiedName) (index : Option Int64) :
    Option (Except Error Value) :=
  ledger.readWithin meaning ledger.limit [] name index

variable {meaning : Meaning π} {ledger : Ledger π} {fuel : Nat} {busy : Busy}
  {name : QualifiedName} {index slot : Option Int64} {registration : Registration π}

theorem readWithin_of_undefined (h : ledger.definitions.get? name = none) :
    ledger.readWithin meaning (fuel + 1) busy name index = some (ledger.readStored name index) := by
  rw [readWithin, h]

theorem readWithin_of_unindexed (h : ledger.definitions.get? name = some registration)
    (hslot : registration.shape.slot? index = none) :
    ledger.readWithin meaning (fuel + 1) busy name index = some (.error (.indexRequired name)) := by
  rw [readWithin, h]
  dsimp only
  rw [hslot]

theorem readWithin_of_busy (h : ledger.definitions.get? name = some registration)
    (hslot : registration.shape.slot? index = some slot) (hbusy : (name, slot) ∈ busy) :
    ledger.readWithin meaning (fuel + 1) busy name index =
      some (.error (.circularDependency name (busy.cycle name slot))) := by
  rw [readWithin, h]
  dsimp only
  rw [hslot]
  exact if_pos hbusy

theorem readWithin_of_idle (h : ledger.definitions.get? name = some registration)
    (hslot : registration.shape.slot? index = some slot) (hidle : (name, slot) ∉ busy) :
    ledger.readWithin meaning (fuel + 1) busy name index =
      ((meaning registration.procedure slot).hold
        (ledger.readWithin meaning fuel ((name, slot) :: busy))).map
          fun whole => whole.bind (registration.shape.part index) := by
  rw [readWithin, h]
  dsimp only
  rw [hslot]
  exact if_neg hidle

/-- A value that is read is stored, or a part of what a procedure gives. -/
theorem readWithin_eq_ok {value : Value}
    (h : ledger.readWithin meaning fuel busy name index = some (.ok value)) :
    ∃ inner, fuel = inner + 1 ∧
      ((ledger.definitions.get? name = none ∧ ledger.readStored name index = .ok value) ∨
      ∃ registration slot whole, ledger.definitions.get? name = some registration ∧
        registration.shape.slot? index = some slot ∧ (name, slot) ∉ busy ∧
        (meaning registration.procedure slot).hold
          (ledger.readWithin meaning inner ((name, slot) :: busy)) = some (.ok whole) ∧
        registration.shape.part index whole = .ok value) := by
  cases fuel with
  | zero => cases h
  | succ inner =>
      refine ⟨inner, rfl, ?_⟩
      cases hname : ledger.definitions.get? name with
      | none =>
          rw [readWithin_of_undefined hname] at h
          exact Or.inl ⟨rfl, Option.some.inj h⟩
      | some registration =>
          right
          cases hslot : registration.shape.slot? index with
          | none =>
              rw [readWithin_of_unindexed hname hslot] at h
              cases h
          | some slot =>
              by_cases hbusy : (name, slot) ∈ busy
              · rw [readWithin_of_busy hname hslot hbusy] at h
                cases h
              · rw [readWithin_of_idle hname hslot hbusy, Option.map_eq_some_iff] at h
                obtain ⟨whole, hhold, hpart⟩ := h
                cases whole with
                | error cause => cases hpart
                | ok whole =>
                    exact ⟨registration, slot, whole, rfl, hslot, hbusy, hhold, hpart⟩

theorem readWithin_succ {answer : Except Error Value}
    (h : ledger.readWithin meaning fuel busy name index = some answer) :
    ledger.readWithin meaning (fuel + 1) busy name index = some answer := by
  induction fuel generalizing busy name index answer with
  | zero => cases h
  | succ fuel ih =>
      cases hname : ledger.definitions.get? name with
      | none =>
          rw [readWithin_of_undefined hname] at h ⊢
          exact h
      | some registration =>
          cases hslot : registration.shape.slot? index with
          | none =>
              rw [readWithin_of_unindexed hname hslot] at h ⊢
              exact h
          | some slot =>
              by_cases hbusy : (name, slot) ∈ busy
              · rw [readWithin_of_busy hname hslot hbusy] at h ⊢
                exact h
              · rw [readWithin_of_idle hname hslot hbusy, Option.map_eq_some_iff] at h
                obtain ⟨whole, hhold, hpart⟩ := h
                rw [readWithin_of_idle hname hslot hbusy, Option.map_eq_some_iff]
                exact ⟨whole, Dialogue.hold_mono (fun _ _ _ => ih) hhold, hpart⟩

/-- Room for deeper nesting changes no answer. -/
theorem readWithin_mono {fuel' : Nat} (hle : fuel ≤ fuel') {answer : Except Error Value}
    (h : ledger.readWithin meaning fuel busy name index = some answer) :
    ledger.readWithin meaning fuel' busy name index = some answer := by
  induction fuel', hle using Nat.le_induction with
  | base => exact h
  | succ fuel' _ ih => exact readWithin_succ ih

theorem hold_readWithin_mono {fuel' : Nat} (hle : fuel ≤ fuel') {d : Dialogue π α} {result : α}
    (h : d.hold (ledger.readWithin meaning fuel busy) = some result) :
    d.hold (ledger.readWithin meaning fuel' busy) = some result :=
  Dialogue.hold_mono (fun _ _ _ => readWithin_mono hle) h

theorem readWithin_unique {fuel' : Nat} {answer answer' : Except Error Value}
    (h : ledger.readWithin meaning fuel busy name index = some answer)
    (h' : ledger.readWithin meaning fuel' busy name index = some answer') : answer = answer' := by
  have hlarge := readWithin_mono (Nat.le_max_left fuel fuel') h
  rw [readWithin_mono (Nat.le_max_right fuel fuel') h'] at hlarge
  exact (Option.some.inj hlarge).symm

theorem hold_readWithin_unique {fuel' : Nat} {d : Dialogue π α} {result result' : α}
    (h : d.hold (ledger.readWithin meaning fuel busy) = some result)
    (h' : d.hold (ledger.readWithin meaning fuel' busy) = some result') : result = result' := by
  have hlarge := hold_readWithin_mono (Nat.le_max_left fuel fuel') h
  rw [hold_readWithin_mono (Nat.le_max_right fuel fuel') h'] at hlarge
  exact (Option.some.inj hlarge).symm

/-- Whether the procedures of all definitions only read, and no more than they are defined with. -/
def Quiet (meaning : Meaning π) (ledger : Ledger π) : Prop :=
  ∀ name registration, ledger.definitions.get? name = some registration →
    ∀ slot, (meaning registration.procedure slot).Reading registration.reads

/-! ### What a value does not depend on -/

/-- Whether one ledger says the same as another of some names, and of all that these are computed
from and that is defined or stored. -/
structure Carries (names : QualifiedName → Prop) (ledger other : Ledger π) : Prop where
  definitions : ∀ name, names name → other.definitions.get? name = ledger.definitions.get? name
  stored : ∀ name, names name → ledger.definitions.get? name = none →
    other.stored.get? name = ledger.stored.get? name
  closed : ∀ name registration, names name →
    ledger.definitions.get? name = some registration → ∀ read ∈ registration.reads,
      names read ∨ ledger.definitions.get? read = none ∧ ledger.stored.get? read = none

theorem Carries.refl (ledger : Ledger π) : ledger.Carries (fun _ => True) ledger :=
  ⟨fun _ _ => rfl, fun _ _ _ => rfl, fun _ _ _ _ _ _ => Or.inl trivial⟩

theorem not_readWithin_ok_of_unknown (hname : ledger.definitions.get? name = none)
    (hstored : ledger.stored.get? name = none) (value : Value) :
    ledger.readWithin meaning fuel busy name index ≠ some (.ok value) := by
  intro h
  obtain ⟨inner, -, ⟨-, hvalue⟩ | ⟨registration, slot, whole, hdefined, -⟩⟩ := readWithin_eq_ok h
  · simp [readStored, hstored] at hvalue
  · rw [hname] at hdefined
    cases hdefined

/-- A procedure carries over to a ledger to which its reads do. -/
theorem Carries.hold {names : QualifiedName → Prop} {other : Ledger π}
    (h : ledger.Carries names other) (hquiet : ledger.Quiet meaning) {busy' : Busy} {value : Value}
    (hname : names name) (hdefined : ledger.definitions.get? name = some registration)
    (hreads : ∀ {read index answer}, names read →
      ledger.readWithin meaning fuel busy read index = some (.ok answer) →
        other.readWithin meaning fuel busy' read index = some (.ok answer))
    (hvalue : (meaning registration.procedure slot).hold
      (ledger.readWithin meaning fuel busy) = some (.ok value)) :
    (meaning registration.procedure slot).hold
      (other.readWithin meaning fuel busy') = some (.ok value) := by
  have hbody := hquiet name registration hdefined slot
  refine hbody.hold_ok (fun read hread place answer hanswer => ?_) hvalue
  rcases h.closed name registration hname hdefined read hread with hread | ⟨hnone, hunstored⟩
  · exact hreads hread hanswer
  · exact absurd hanswer (not_readWithin_ok_of_unknown hnone hunstored answer)

/-- A value carries over to a ledger that says the same of all that it is computed from, with no
more in progress. -/
theorem Carries.readWithin {names : QualifiedName → Prop} {other : Ledger π}
    (h : ledger.Carries names other) (hquiet : ledger.Quiet meaning) {busy' : Busy} {value : Value}
    (hname : names name) (hbusy : busy' ⊆ busy)
    (hvalue : ledger.readWithin meaning fuel busy name index = some (.ok value)) :
    other.readWithin meaning fuel busy' name index = some (.ok value) := by
  induction fuel generalizing busy busy' name index value with
  | zero => cases hvalue
  | succ fuel ih =>
      obtain ⟨inner, hinner, hcases⟩ := readWithin_eq_ok hvalue
      obtain rfl : fuel = inner := Nat.succ.inj hinner
      have hsame := h.definitions name hname
      rcases hcases with ⟨hnone, hstored⟩ |
        ⟨registration, slot, whole, hdefined, hslot, hidle, hhold, hpart⟩
      · have hanswer : other.readStored name index = ledger.readStored name index := by
          unfold readStored
          rw [h.stored name hname hnone]
        rw [readWithin_of_undefined (hsame.trans hnone), hanswer, hstored]
      · have hidle' : (name, slot) ∉ busy' := fun hmem => hidle (hbusy hmem)
        have hbody := h.hold hquiet hname hdefined
          (fun hread => ih hread (List.cons_subset_cons _ hbusy)) hhold
        rw [readWithin_of_idle (hsame.trans hdefined) hslot hidle', hbody]
        exact congrArg some hpart

theorem readWithin_of_subset (hquiet : ledger.Quiet meaning) {busy' : Busy} (hbusy : busy' ⊆ busy)
    {value : Value} (h : ledger.readWithin meaning fuel busy name index = some (.ok value)) :
    ledger.readWithin meaning fuel busy' name index = some (.ok value) :=
  (Carries.refl ledger).readWithin hquiet trivial hbusy h

theorem hold_of_subset (hquiet : ledger.Quiet meaning) {names : List QualifiedName}
    {d : Dialogue π (Except Error α)} (hd : d.Reading names) {busy' : Busy} (hbusy : busy' ⊆ busy)
    {result : α} (h : d.hold (ledger.readWithin meaning fuel busy) = some (.ok result)) :
    d.hold (ledger.readWithin meaning fuel busy') = some (.ok result) :=
  hd.hold_ok (fun _ _ _ _ => readWithin_of_subset hquiet hbusy) h

/-! ### Values of slots -/

/-- Whether a slot, run from scratch with nothing else in progress, has a value. -/
def Gives (meaning : Meaning π) (ledger : Ledger π) (fuel : Nat) (name : QualifiedName)
    (slot : Option Int64) (value : Value) : Prop :=
  ∃ registration, ledger.definitions.get? name = some registration ∧
    (meaning registration.procedure slot).hold
      (ledger.readWithin meaning fuel [(name, slot)]) = some (.ok value)

/-- Whether a slot has any value with procedures nested no deeper than that. -/
def Yields (meaning : Meaning π) (ledger : Ledger π) (fuel : Nat)
    (entry : QualifiedName × Option Int64) : Prop :=
  ∃ value, ledger.Gives meaning fuel entry.1 entry.2 value

/-- What a slot has inside of others it has from scratch. -/
theorem gives_of_hold (hquiet : ledger.Quiet meaning)
    (hname : ledger.definitions.get? name = some registration) {value : Value}
    (h : (meaning registration.procedure slot).hold
      (ledger.readWithin meaning fuel ((name, slot) :: busy)) = some (.ok value)) :
    ledger.Gives meaning fuel name slot value :=
  ⟨registration, hname, hold_of_subset hquiet (hquiet name registration hname slot)
    (List.cons_subset_cons _ (List.nil_subset _)) h⟩

theorem Gives.unique {fuel' : Nat} {value value' : Value}
    (h : ledger.Gives meaning fuel name slot value)
    (h' : ledger.Gives meaning fuel' name slot value') : value = value' := by
  obtain ⟨registration, hname, hhold⟩ := h
  obtain ⟨registration', hname', hhold'⟩ := h'
  obtain rfl : registration = registration' := Option.some.inj (hname.symm.trans hname')
  exact Except.ok.inj (hold_readWithin_unique hhold hhold')

theorem Gives.carry {names : QualifiedName → Prop} {other : Ledger π}
    (hcarries : ledger.Carries names other) (hquiet : ledger.Quiet meaning) {value : Value}
    (hname : names name) (h : ledger.Gives meaning fuel name slot value) :
    other.Gives meaning fuel name slot value := by
  obtain ⟨registration, hdefined, hhold⟩ := h
  refine ⟨registration, (hcarries.definitions name hname).trans hdefined, ?_⟩
  exact hcarries.hold hquiet hname hdefined
    (fun hread => hcarries.readWithin hquiet hread (List.Subset.refl _)) hhold

/-- A slot that has a value has it from some depth on and none below. -/
theorem Gives.exists_least {value : Value} (h : ledger.Gives meaning fuel name slot value) :
    ∃ least ≤ fuel, ledger.Gives meaning least name slot value ∧
      ∀ inner < least, ¬ledger.Yields meaning inner (name, slot) := by
  induction fuel using Nat.strongRecOn with
  | ind fuel ih =>
      by_cases hlower : ∃ inner < fuel, ledger.Yields meaning inner (name, slot)
      · obtain ⟨inner, hinner, value', hgives⟩ := hlower
        obtain rfl : value = value' := h.unique hgives
        obtain ⟨least, hle, hleast⟩ := ih inner hinner hgives
        exact ⟨least, by omega, hleast⟩
      · refine ⟨fuel, Nat.le_refl fuel, h, fun inner hinner hyields => ?_⟩
        exact hlower ⟨inner, hinner, hyields⟩

/-- A dialogue that succeeds while nothing is in progress meets no slot that has no value with less
room than it has itself, and so succeeds with such slots in progress too. -/
theorem hold_of_fresh (hquiet : ledger.Quiet meaning) {names : List QualifiedName}
    {d : Dialogue π (Except Error α)} (hd : d.Reading names) {result : α}
    (hfresh : ∀ entry ∈ busy, ∀ inner < fuel, ¬ledger.Yields meaning inner entry)
    (h : d.hold (ledger.readWithin meaning fuel []) = some (.ok result)) :
    d.hold (ledger.readWithin meaning fuel busy) = some (.ok result) := by
  induction fuel using Nat.strongRecOn generalizing α names d busy result with
  | ind fuel ih =>
      refine hd.hold_ok (fun name _ index value hvalue => ?_) h
      obtain ⟨inner, rfl, ⟨hnone, hstored⟩ | ⟨registration, slot, whole, hname, hslot, -, hhold,
        hpart⟩⟩ := readWithin_eq_ok hvalue
      · rw [readWithin_of_undefined hnone, hstored]
      · have hgives : ledger.Gives meaning inner name slot whole := ⟨registration, hname, hhold⟩
        have hidle : (name, slot) ∉ busy := fun hbusy =>
          hfresh (name, slot) hbusy inner (Nat.lt_succ_self inner) ⟨whole, hgives⟩
        -- From the least depth on, neither the slot itself nor what is in progress can come up.
        obtain ⟨least, hle, ⟨registration', hname', hleast⟩, hbelow⟩ := hgives.exists_least
        obtain rfl : registration = registration' := Option.some.inj (hname.symm.trans hname')
        have hbody := hquiet name registration hname slot
        have haround : (meaning registration.procedure slot).hold
            (ledger.readWithin meaning least ((name, slot) :: busy)) = some (.ok whole) := by
          refine ih least (Nat.lt_succ_of_le hle) hbody (fun entry hentry lower hlower => ?_)
            (hold_of_subset hquiet hbody (List.nil_subset _) hleast)
          rcases List.mem_cons.mp hentry with rfl | hentry
          · exact hbelow lower hlower
          · exact hfresh entry hentry lower (by omega)
        rw [readWithin_of_idle hname hslot hidle, hold_readWithin_mono hle haround]
        exact congrArg some hpart

/-- A slot without which no slot in progress has a value is not among them, and has its value
whatever is in progress. -/
theorem Gives.hold_of_needed (hquiet : ledger.Quiet meaning) {value : Value}
    (h : ledger.Gives meaning fuel name slot value)
    (hneeded : ∀ entry ∈ busy, ∀ depth, ledger.Yields meaning depth entry →
      ∃ lower < depth, ledger.Yields meaning lower (name, slot)) :
    (name, slot) ∉ busy ∧ ∃ registration least, ledger.definitions.get? name = some registration ∧
      (meaning registration.procedure slot).hold
        (ledger.readWithin meaning least ((name, slot) :: busy)) = some (.ok value) := by
  obtain ⟨least, -, ⟨registration, hname, hleast⟩, hbelow⟩ := h.exists_least
  have hfresh : ∀ entry ∈ busy, ∀ depth ≤ least, ¬ledger.Yields meaning depth entry := by
    intro entry hentry depth hdepth hyields
    obtain ⟨lower, hlower, hself⟩ := hneeded entry hentry depth hyields
    exact hbelow lower (by omega) hself
  refine ⟨fun hbusy => ?_, registration, least, hname, ?_⟩
  · exact hfresh _ hbusy least (Nat.le_refl least) ⟨value, registration, hname, hleast⟩
  · have hbody := hquiet name registration hname slot
    refine hold_of_fresh hquiet hbody (fun entry hentry lower hlower => ?_)
      (hold_of_subset hquiet hbody (List.nil_subset _) hleast)
    rcases List.mem_cons.mp hentry with rfl | hentry
    · exact hbelow lower hlower
    · exact hfresh entry hentry lower (by omega)

/-! ### Every read has an answer -/

/-- Whether slots in progress are slots of definitions, each once. -/
structure Fitting (ledger : Ledger π) (busy : Busy) : Prop where
  nodup : busy.Nodup
  fits : ∀ entry ∈ busy, ∃ registration, ledger.definitions.get? entry.1 = some registration ∧
    registration.shape.Fits entry.2

theorem fitting_nil (ledger : Ledger π) : ledger.Fitting [] :=
  ⟨List.nodup_nil, fun _ hentry => absurd hentry List.not_mem_nil⟩

theorem Fitting.cons (h : ledger.Fitting busy)
    (hname : ledger.definitions.get? name = some registration)
    (hslot : registration.shape.slot? index = some slot) (hidle : (name, slot) ∉ busy) :
    ledger.Fitting ((name, slot) :: busy) := by
  refine ⟨List.nodup_cons.mpr ⟨hidle, h.nodup⟩, fun entry hentry => ?_⟩
  rcases List.mem_cons.mp hentry with rfl | hentry
  · exact ⟨registration, hname, Shape.fits_of_slot? hslot⟩
  · exact h.fits entry hentry

theorem Fitting.length_le (h : ledger.Fitting busy) :
    busy.length ≤ 2 ^ 64 * ledger.definitions.size := by
  have hsize := ledger.definitions.length_keys
  rw [← hsize]
  refine Nesting.length_le
    (fun name => (ledger.definitions.get? name).map fun registration => registration.shape) h.nodup
    fun entry hentry => ?_
  obtain ⟨registration, hname, hfits⟩ := h.fits entry hentry
  exact ⟨Table.mem_keys_of_get? hname, registration.shape, by rw [hname]; rfl, hfits⟩

theorem exists_readWithin (hquiet : ledger.Quiet meaning) (hbusy : ledger.Fitting busy)
    (hfuel : 2 ^ 64 * ledger.definitions.size < fuel + busy.length) (name : QualifiedName)
    (index : Option Int64) :
    ∃ answer, ledger.readWithin meaning fuel busy name index = some answer := by
  induction fuel generalizing busy name index with
  | zero =>
      have := hbusy.length_le
      omega
  | succ fuel ih =>
      cases hname : ledger.definitions.get? name with
      | none => exact ⟨_, readWithin_of_undefined hname⟩
      | some registration =>
          cases hslot : registration.shape.slot? index with
          | none => exact ⟨_, readWithin_of_unindexed hname hslot⟩
          | some slot =>
              by_cases hidle : (name, slot) ∈ busy
              · exact ⟨_, readWithin_of_busy hname hslot hidle⟩
              · have hlength : 2 ^ 64 * ledger.definitions.size <
                    fuel + ((name, slot) :: busy).length := by
                  rw [List.length_cons]
                  omega
                obtain ⟨whole, hwhole⟩ := (hquiet name registration hname slot).exists_hold
                  fun read _ place => ih (hbusy.cons hname hslot hidle) hlength read place
                exact ⟨_, by rw [readWithin_of_idle hname hslot hidle, hwhole]; rfl⟩

theorem exists_read (hquiet : ledger.Quiet meaning) (name : QualifiedName)
    (index : Option Int64) : ∃ answer, ledger.read meaning name index = some answer := by
  refine exists_readWithin hquiet (fitting_nil ledger) ?_ name index
  rw [limit, UInt64.size, List.length_nil]
  omega

end Ledger
end Memograph
