import Memograph.Proofs.Evolution

/-! What a value rests on. A recompute that succeeds has read all that it is registered with, and
a read succeeds only of a dependency or of a variable with a stored value. So behind a slot with a
value no name is left open, neither among the reads of its dependency nor further back, and no
name is read by way of itself. -/

open Relation

namespace Memograph.Environment

variable {π α : Type} {env after : Environment π}

/-- Whether a name has a dependency or a stored value. -/
def Known (env : Environment π) (name : QualifiedName) : Prop :=
  env.dependencies.get? name ≠ none ∨ env.stored.get? name ≠ none

theorem not_known_iff {name : QualifiedName} :
    ¬env.Known name ↔ env.dependencies.get? name = none ∧ env.stored.get? name = none := by
  simp only [Known, ne_eq, not_or, Decidable.not_not]

/-- Whether a name and all that it is computed from are known. -/
def Grounded (env : Environment π) (name : QualifiedName) : Prop :=
  ∀ source, env.Reaches source name → env.Known source

/-- Whether a variable is read by another, as it is registered. -/
def Reads (env : Environment π) (reader read : QualifiedName) : Prop :=
  ∃ dependency, env.dependencies.get? reader = some dependency ∧ read ∈ dependency.reads

instance (env : Environment π) (reader read : QualifiedName) : Decidable (env.Reads reader read) :=
  decidable_of_iff ((env.dependencies.get? reader).any fun dependency => read ∈ dependency.reads)
    (by simp only [Option.any_eq_true, decide_eq_true_eq, Reads])

theorem SameDependencies.reads (h : env.SameDependencies after) : after.Reads = env.Reads := by
  have himp : ∀ {env after : Environment π}, env.SameDependencies after →
      ∀ reader read, env.Reads reader read → after.Reads reader read := by
    rintro env after h reader read ⟨dependency, hreader, hread⟩
    obtain ⟨later, hlater, heq, -⟩ := h.get?_eq_some hreader
    exact ⟨later, hlater, heq ▸ hread⟩
  funext reader read
  exact propext ⟨himp h.symm reader read, himp h reader read⟩

/-- Whether all paths along what a name reads come to an end. -/
def Founded (env : Environment π) (name : QualifiedName) : Prop :=
  Acc (fun read reader => env.Reads reader read) name

/-- A name from which a cycle can be reached is not founded. -/
theorem Founded.not_cycle {name source : QualifiedName} (h : env.Founded name)
    (hpath : ReflTransGen env.Reads name source) : ¬TransGen env.Reads source source := by
  have hsource : env.Founded source := by
    induction hpath with
    | refl => exact h
    | tail _ hread ih => exact ih.inv hread
  intro hcycle
  have hback : TransGen (fun read reader => env.Reads reader read) source source :=
    transGen_swap.mpr hcycle
  have hacc : Acc (TransGen fun read reader => env.Reads reader read) source := hsource.transGen
  clear hcycle hsource hpath
  induction hacc with
  | intro source _ ih => exact ih source hback hback

/-! ### Inherited properties -/

/-- Whether a property of names holds of stored variables, and of a dependency if it holds of all
that the dependency reads, and is not lost as values are stored. -/
structure Inherited (P : Environment π → QualifiedName → Prop) : Prop where
  carried : ∀ {env after : Environment π} {name : QualifiedName}, env.SameDependencies after →
    (∀ key, env.stored.get? key ≠ none → after.stored.get? key ≠ none) → P env name → P after name
  stored : ∀ {env : Environment π} {name : QualifiedName}, env.Indexed →
    env.dependencies.get? name = none → env.stored.get? name ≠ none → P env name
  reads : ∀ {env : Environment π} {name : QualifiedName} {dependency : Dependency π}, env.Indexed →
    env.dependencies.get? name = some dependency → (∀ read ∈ dependency.reads, P env read) →
      P env name

/-- Whether a property of names holds wherever a slot has a value. -/
def ValuesHave (P : Environment π → QualifiedName → Prop) (env : Environment π) : Prop :=
  ∀ name slot value, env.statusOf name slot = .valid value → P env name

def ValuesGrounded (env : Environment π) : Prop := env.ValuesHave Grounded

theorem inherited_grounded : Inherited (Grounded (π := π)) where
  carried := by
    intro env after name h hassigned hname source hsource
    rw [h.reaches] at hsource
    rcases hname source hsource with hknown | hknown
    · exact Or.inl (mt (h.get?_eq_none_iff source).mp hknown)
    · exact Or.inr (hassigned source hknown)
  stored := by
    intro env name hindexed hname hstored source hsource
    rcases ReflTransGen.cases_tail hsource with rfl | ⟨read, -, hreader⟩
    · exact Or.inr hstored
    · obtain ⟨dependency, hdependency, -⟩ := (hindexed read name).mp hreader
      rw [hname] at hdependency
      cases hdependency
  reads := by
    intro env name dependency hindexed hname hreads source hsource
    rcases ReflTransGen.cases_tail hsource with rfl | ⟨read, hpath, hreader⟩
    · left
      rw [hname]
      exact Option.some_ne_none dependency
    · obtain ⟨other, hother, hread⟩ := (hindexed read name).mp hreader
      rw [hname, Option.some.injEq] at hother
      exact hreads read (hother ▸ hread) source hpath

theorem inherited_founded : Inherited (Founded (π := π)) where
  carried := by
    intro env after name h _ hname
    rwa [Founded, h.reads]
  stored := by
    rintro env name - hname -
    refine Acc.intro name fun read hread => ?_
    obtain ⟨dependency, hdependency, -⟩ := hread
    rw [hname] at hdependency
    cases hdependency
  reads := by
    rintro env name dependency - hname hreads
    refine Acc.intro name fun read hread => ?_
    obtain ⟨other, hother, hmem⟩ := hread
    rw [hname, Option.some.injEq] at hother
    exact hreads read (hother ▸ hmem)

theorem stored_of_readStored {name : QualifiedName} {index : Option Int64} {value : Value}
    (h : env.readStored name index = .ok value) : env.stored.get? name ≠ none := by
  intro hnone
  simp [readStored, hnone] at h

variable {P : Environment π → QualifiedName → Prop}

theorem Evolves.inherited (h : env.Evolves after) (hP : Inherited P) {name : QualifiedName}
    (hname : P env name) : P after name :=
  hP.carried h.same h.assigned hname

/-! ### Steps -/

namespace ValuesHave

theorem notify (h : env.ValuesHave P) (hP : Inherited P) (name : QualifiedName) :
    (env.notify name).2.ValuesHave P := by
  intro key slot value hvalid
  have hbefore := (env.valid_of_notify hvalid).2
  refine hP.carried (sameDependencies_notify env name) ?_ (h key slot value hbefore)
  rw [notify_snd]
  exact fun _ hkey => hkey

theorem store (h : env.ValuesHave P) (hP : Inherited P) (name : QualifiedName) (value : Value) :
    (env.store name value).ValuesHave P := fun key slot other hvalid =>
  hP.carried (sameDependencies_store env name value) (fun _ hkey => get?_store_ne_none value hkey)
    (h key slot other hvalid)

theorem assign (h : env.ValuesHave P) (hP : Inherited P) (name : QualifiedName) (value : Value) :
    (env.assign name value).2.ValuesHave P :=
  (h.store hP name value).notify hP name

theorem start (h : env.ValuesHave P) (hP : Inherited P) {name : QualifiedName}
    {dependency : Dependency π} (hname : env.dependencies.get? name = some dependency)
    (slot : Option Int64) : (env.start name dependency slot).ValuesHave P := by
  intro key index value hvalid
  rw [statusOf_start hname] at hvalid
  split at hvalid
  · cases hvalid
  · exact hP.carried (sameDependencies_start hname slot) (fun _ hkey => hkey)
      (h key index value hvalid)

theorem finish (h : env.ValuesHave P) (hP : Inherited P) {name : QualifiedName}
    {dependency : Dependency π} (hname : env.dependencies.get? name = some dependency)
    (slot : Option Int64) (began : Nat) {result : Except Error Value}
    (hresult : ∀ value, result = .ok value → P env name) :
    (env.finish name dependency.serial began slot result).ValuesHave P := by
  have hkept : ∀ {key : QualifiedName}, P env key →
      P (env.finish name dependency.serial began slot result) key := fun hkey =>
    hP.carried (sameDependencies_finish hname slot began result)
      (fun _ hother => by rwa [finish_eq hname]) hkey
  intro key index value hvalid
  rw [statusOf_finish hname] at hvalid
  split at hvalid
  · next hslot =>
      cases result with
      | error cause => cases hvalid
      | ok whole => exact hkept (hslot.1 ▸ hresult whole rfl)
  · exact hkept (h key index value hvalid)

end ValuesHave

/-! ### Runs -/

variable {meaning : Meaning π} (hP : Inherited P)

include hP

theorem inherited_converse {depth : Nat}
    (hread : ∀ {env after : Environment π} {name : QualifiedName} {index : Option Int64}
      {result : Except Error Value}, env.Regular meaning → env.ValuesHave P →
      env.read (nested meaning depth) meaning name index = some (result, after) →
        after.ValuesHave P ∧ ∀ value, result = .ok value → P after name)
    {footprint : Footprint} {post : List QualifiedName → α → Prop} {asked : List QualifiedName}
    {d : Dialogue π (Except Error α)} (hd : d.Follows footprint post asked)
    {result : Except Error α} (henv : env.Regular meaning) (howns : env.Owns footprint.stores)
    (hvalues : env.ValuesHave P)
    (hrun : converse (respond (nested meaning depth) meaning) d env = some (result, after)) :
    after.ValuesHave P ∧ ∀ value, result = .ok value → ∃ names, post names value ∧
      ∀ name ∈ names, name ∈ asked ∨ P after name := by
  induction hd generalizing env with
  | failed cause =>
      cases hrun
      exact ⟨hvalues, nofun⟩
  | @done asked value hpost =>
      cases hrun
      refine ⟨hvalues, fun other hother => ?_⟩
      cases hother
      exact ⟨asked, hpost, fun _ => Or.inl⟩
  | @read asked name index next hname hfailed hnext ih =>
      obtain ⟨answer, middle, hreply, hlater⟩ := converse_ask_eq_some hrun
      have hstep : env.Evolves middle := (steady_evolves meaning).read henv hreply
      obtain ⟨hmiddle, hanswer⟩ := hread henv hvalues hreply
      cases answer with
      | error cause =>
          rw [hfailed] at hlater
          cases hlater
          exact ⟨hmiddle, nofun⟩
      | ok value =>
          have henv' := hstep.same.regular henv
          have howns' := hstep.same.owns howns
          have hrest : middle.Evolves after :=
            (steady_evolves meaning).converse (steady_evolves meaning).read (hnext value)
              henv' howns' hlater
          obtain ⟨hafter, hsuccess⟩ := ih value henv' howns' hmiddle hlater
          refine ⟨hafter, fun last hlast => ?_⟩
          obtain ⟨names, hpost, hnames⟩ := hsuccess last hlast
          refine ⟨names, hpost, fun other hother => ?_⟩
          rcases hnames other hother with hasked | hlater
          · rcases List.mem_cons.mp hasked with rfl | hasked
            · exact Or.inr (hrest.inherited hP (hanswer value rfl))
            · exact Or.inl hasked
          · exact Or.inr hlater
  | @assign asked name value rest hname hrest ih =>
      have hstep := evolves_assign henv.indexed name value
      exact ih (hstep.same.regular henv) (hstep.same.owns howns) (hvalues.assign hP name value) hrun
  | @store asked name value rest hname hrest ih =>
      obtain ⟨dependency, hdependency⟩ := howns name hname
      have hstep := evolves_store hdependency value
      exact ih (hstep.same.regular henv) (hstep.same.owns howns) (hvalues.store hP name value) hrun

theorem inherited_nested (depth : Nat) {name : QualifiedName} {dependency : Dependency π}
    {slot : Option Int64} {result : Except Error Value} {middle : Environment π}
    (hread : ∀ {inner : Nat} {env after : Environment π} {name : QualifiedName}
      {index : Option Int64} {result : Except Error Value}, inner < depth → env.Regular meaning →
      env.ValuesHave P →
      env.read (nested meaning inner) meaning name index = some (result, after) →
        after.ValuesHave P ∧ ∀ value, result = .ok value → P after name)
    (henv : env.Regular meaning) (hvalues : env.ValuesHave P)
    (hname : env.dependencies.get? name = some dependency)
    (hrun : nested meaning depth (meaning dependency.procedure slot)
      (env.start name dependency slot) = some (result, middle)) :
    middle.ValuesHave P ∧ ∀ value, result = .ok value → P middle name := by
  cases depth with
  | zero => cases hrun
  | succ inner =>
      have hevolves := (steady_evolves meaning).nested (inner + 1) henv hname hrun
      have hstart := sameDependencies_start hname slot
      obtain ⟨footprint, -, hstores, hfollows⟩ := henv.disciplined name dependency hname
      rw [nested, runWithin_eq_converse] at hrun
      obtain ⟨hmiddle, hsuccess⟩ := inherited_converse hP (hread (Nat.lt_succ_self inner))
        (hfollows slot) (hstart.regular henv) (hstart.owns (owns_of_subset hname hstores))
        (hvalues.start hP hname slot) hrun
      refine ⟨hmiddle, fun value hvalue => ?_⟩
      obtain ⟨names, hpost, hnames⟩ := hsuccess value hvalue
      have hsame := hstart.trans hevolves.same
      obtain ⟨later, hlater, heq, -⟩ := hsame.get?_eq_some hname
      refine hP.reads (hsame.regular henv).indexed hlater fun read hread => ?_
      exact (hnames read (hpost (heq ▸ hread))).resolve_left List.not_mem_nil

/-- Reading keeps the property behind all values, and what is read successfully has it itself. -/
theorem inherited_read (depth : Nat) {name : QualifiedName} {index : Option Int64}
    {result : Except Error Value} (henv : env.Regular meaning) (hvalues : env.ValuesHave P)
    (hread : env.read (nested meaning depth) meaning name index = some (result, after)) :
    after.ValuesHave P ∧ ∀ value, result = .ok value → P after name := by
  induction depth using Nat.strongRecOn generalizing env after name index result with
  | ind depth ih =>
      rcases read_eq_some hread with ⟨hnone, rfl, rfl⟩ | ⟨dependency, hname, hcomputed⟩
      · exact ⟨hvalues, fun value hvalue =>
          hP.stored henv.indexed hnone (stored_of_readStored hvalue)⟩
      · rcases hcomputed with ⟨-, rfl, rfl⟩ | ⟨slot, whole, -, hcompute, rfl⟩
        · exact ⟨hvalues, nofun⟩
        · rcases compute_eq_some hcompute with
            ⟨value, hstatus, rfl, rfl⟩ | ⟨-, rfl, rfl⟩ | ⟨-, middle, hrun, rfl⟩
          · refine ⟨hvalues, fun _ _ => hvalues name slot value ?_⟩
            rw [statusOf_of_get? hname, hstatus]
          · exact ⟨hvalues, nofun⟩
          · obtain ⟨hmiddle, hsuccess⟩ := inherited_nested hP depth
              (fun hinner henv hvalues hread => ih _ hinner henv hvalues hread)
              henv hvalues hname hrun
            have hevolves := (steady_evolves meaning).nested depth henv hname hrun
            obtain ⟨later, hlater, -, hserial⟩ :=
              ((sameDependencies_start hname slot).trans hevolves.same).get?_eq_some hname
            rw [← hserial]
            refine ⟨hmiddle.finish hP hlater slot _ hsuccess, fun value hvalue => ?_⟩
            cases whole with
            | error cause => cases hvalue
            | ok inner =>
                refine hP.carried (sameDependencies_finish hlater slot _ _) ?_ (hsuccess inner rfl)
                rw [finish_eq hlater]
                exact fun _ hkey => hkey

/-- A run keeps the property behind all values. -/
theorem ValuesHave.run {footprint : Footprint} {post : List QualifiedName → α → Prop}
    {asked : List QualifiedName} {d : Dialogue π (Except Error α)} {result : Except Error α}
    (h : env.ValuesHave P) (hd : d.Follows footprint post asked) (henv : env.Regular meaning)
    (howns : env.Owns footprint.stores) (hrun : env.run meaning d = some (result, after)) :
    after.ValuesHave P := by
  rw [Environment.run, runWithin_eq_converse] at hrun
  exact (inherited_converse hP (inherited_read hP _) hd henv howns h hrun).1

end Memograph.Environment
