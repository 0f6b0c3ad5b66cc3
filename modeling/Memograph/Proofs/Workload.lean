import Memograph.Proofs.Ledger

/-! What a read from scratch takes. The workload of a read are the slots whose procedures it runs,
one entry for each time, in the order of the starts. The workload of a value depends neither on the
room for nesting nor on what else is in progress, like the value itself. -/

namespace Memograph

variable {π α : Type}

namespace Dialogue

variable {read read' : QualifiedName → Option Int64 → Option (Except Error Value)}
  {work work' : QualifiedName → Option Int64 → Busy}

theorem workload_read {name : QualifiedName} {index : Option Int64} {answer : Except Error Value}
    {next : Except Error Value → Dialogue π α} (h : read name index = some answer) :
    (Dialogue.ask (.read name index) next).workload read work =
      work name index ++ (next answer).workload read work := by
  rw [workload, h]

/-- Two ways to hold a dialogue, both with success, take the same if each read does that succeeds
both ways. -/
theorem Reading.workload_eq {names : List QualifiedName} {d : Dialogue π (Except Error α)}
    (hd : d.Reading names)
    (hread : ∀ name index value value', read name index = some (.ok value) →
      read' name index = some (.ok value') → value = value' ∧ work name index = work' name index)
    {result result' : α} (h : d.hold read = some (.ok result))
    (h' : d.hold read' = some (.ok result')) : d.workload read work = d.workload read' work' := by
  induction hd with
  | done other => rfl
  | @read name index next hname hfailed hnext ih =>
      obtain ⟨value, hvalue, hrest⟩ := hold_read_eq_ok hfailed h
      obtain ⟨value', hvalue', hrest'⟩ := hold_read_eq_ok hfailed h'
      obtain ⟨rfl, hwork⟩ := hread name index value value' hvalue hvalue'
      rw [workload_read hvalue, workload_read hvalue', hwork, ih value hrest hrest']

end Dialogue

namespace Ledger

variable {meaning : Meaning π} {ledger : Ledger π} {fuel : Nat} {busy : Busy}
  {name : QualifiedName} {index slot : Option Int64} {registration : Registration π}

theorem workWithin_of_undefined (h : ledger.definitions.get? name = none) :
    ledger.workWithin meaning fuel busy name index = [] := by
  cases fuel with
  | zero => rfl
  | succ fuel => rw [workWithin, h]

theorem workWithin_of_unindexed (h : ledger.definitions.get? name = some registration)
    (hslot : registration.shape.slot? index = none) :
    ledger.workWithin meaning fuel busy name index = [] := by
  cases fuel with
  | zero => rfl
  | succ fuel =>
      rw [workWithin, h]
      dsimp only
      rw [hslot]

theorem workWithin_of_busy (h : ledger.definitions.get? name = some registration)
    (hslot : registration.shape.slot? index = some slot) (hbusy : (name, slot) ∈ busy) :
    ledger.workWithin meaning fuel busy name index = [] := by
  cases fuel with
  | zero => rfl
  | succ fuel =>
      rw [workWithin, h]
      dsimp only
      rw [hslot]
      exact if_pos hbusy

theorem workWithin_of_idle (h : ledger.definitions.get? name = some registration)
    (hslot : registration.shape.slot? index = some slot) (hidle : (name, slot) ∉ busy) :
    ledger.workWithin meaning (fuel + 1) busy name index =
      (name, slot) :: (meaning registration.procedure slot).workload
        (ledger.readWithin meaning fuel ((name, slot) :: busy))
        (ledger.workWithin meaning fuel ((name, slot) :: busy)) := by
  rw [workWithin, h]
  dsimp only
  rw [hslot]
  exact if_neg hidle

/-- A procedure that succeeds both with more and with less in progress takes the same both times, if
each value that is read does. -/
theorem workload_eq_of (hquiet : ledger.Quiet meaning) {names : List QualifiedName}
    {d : Dialogue π (Except Error α)} (hd : d.Reading names) {fuel' : Nat} {busy' : Busy}
    (hbusy : busy' ⊆ busy)
    (hwork : ∀ {name index value value'},
      ledger.readWithin meaning fuel busy name index = some (.ok value) →
      ledger.readWithin meaning fuel' busy' name index = some (.ok value') →
        ledger.workWithin meaning fuel busy name index =
          ledger.workWithin meaning fuel' busy' name index)
    {result result' : α} (h : d.hold (ledger.readWithin meaning fuel busy) = some (.ok result))
    (h' : d.hold (ledger.readWithin meaning fuel' busy') = some (.ok result')) :
    d.workload (ledger.readWithin meaning fuel busy) (ledger.workWithin meaning fuel busy) =
      d.workload (ledger.readWithin meaning fuel' busy')
        (ledger.workWithin meaning fuel' busy') := by
  refine hd.workload_eq (fun name index value value' hvalue hvalue' => ⟨?_, ?_⟩) h h'
  · have hfree := readWithin_of_subset hquiet hbusy hvalue
    exact Except.ok.inj (readWithin_unique hfree hvalue')
  · exact hwork hvalue hvalue'

/-- A value that is read both with more and with less in progress takes the same both times. -/
theorem workWithin_eq (hquiet : ledger.Quiet meaning) {fuel' : Nat} {busy' : Busy}
    (hbusy : busy' ⊆ busy) {value value' : Value}
    (h : ledger.readWithin meaning fuel busy name index = some (.ok value))
    (h' : ledger.readWithin meaning fuel' busy' name index = some (.ok value')) :
    ledger.workWithin meaning fuel busy name index =
      ledger.workWithin meaning fuel' busy' name index := by
  -- The induction is on the room of the first read; the other one has its own.
  induction fuel generalizing fuel' busy busy' name index value value' with
  | zero => cases h
  | succ fuel ih =>
      obtain ⟨inner, hinner, hcases⟩ := readWithin_eq_ok h
      obtain rfl : fuel = inner := Nat.succ.inj hinner
      obtain ⟨inner', rfl, hcases'⟩ := readWithin_eq_ok h'
      rcases hcases with ⟨hnone, -⟩ |
        ⟨registration, slot, whole, hdefined, hslot, hidle, hhold, -⟩
      · rw [workWithin_of_undefined hnone, workWithin_of_undefined hnone]
      · rcases hcases' with ⟨hnone, -⟩ |
          ⟨registration', slot', whole', hdefined', hslot', hidle', hhold', -⟩
        · rw [hdefined] at hnone
          cases hnone
        · obtain rfl : registration = registration' :=
            Option.some.inj (hdefined.symm.trans hdefined')
          obtain rfl : slot = slot' := Option.some.inj (hslot.symm.trans hslot')
          have hsubset : (name, slot) :: busy' ⊆ (name, slot) :: busy :=
            List.cons_subset_cons _ hbusy
          have hbody := hquiet name registration hdefined slot
          rw [workWithin_of_idle hdefined hslot hidle, workWithin_of_idle hdefined hslot hidle',
            workload_eq_of hquiet hbody hsubset (ih hsubset) hhold hhold']

theorem workload_eq (hquiet : ledger.Quiet meaning) {names : List QualifiedName}
    {d : Dialogue π (Except Error α)} (hd : d.Reading names) {fuel' : Nat} {busy' : Busy}
    (hbusy : busy' ⊆ busy) {result result' : α}
    (h : d.hold (ledger.readWithin meaning fuel busy) = some (.ok result))
    (h' : d.hold (ledger.readWithin meaning fuel' busy') = some (.ok result')) :
    d.workload (ledger.readWithin meaning fuel busy) (ledger.workWithin meaning fuel busy) =
      d.workload (ledger.readWithin meaning fuel' busy')
        (ledger.workWithin meaning fuel' busy') :=
  workload_eq_of hquiet hd hbusy (workWithin_eq hquiet hbusy) h h'

end Ledger
end Memograph
