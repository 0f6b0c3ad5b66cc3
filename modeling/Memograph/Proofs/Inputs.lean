import Memograph.Proofs.Coherence

/-! The inputs of a value. A slot with a value rests on reads that are all at hand themselves: the
procedure that replays to the value asks for each variable that its dependency is registered with,
and a replay asks only for stored values and for slots that have one. So between two steps there is
no value over a variable that would have to be recomputed first, but for those of lapped
recomputes. -/

namespace Memograph

namespace Environment

variable {π : Type} {env : Environment π}

/-- Whether a variable has a value that no recompute is needed for: a stored one if it is a plain
variable, and one in a slot of its own if it has a dependency. -/
inductive Current (env : Environment π) (name : QualifiedName) : Prop where
  | stored {value : Value} (hname : env.dependencies.get? name = none)
      (hstored : env.stored.get? name = some value)
  | scalar {dependency : Dependency π} {value : Value}
      (hname : env.dependencies.get? name = some dependency) (hshape : dependency.shape = .scalar)
      (hvalid : dependency.status none = .valid value)
  | itemwise {dependency : Dependency π} {index : Int64} {value : Value}
      (hname : env.dependencies.get? name = some dependency)
      (hshape : dependency.shape = .itemwise)
      (hvalid : dependency.status (some index) = .valid value)

theorem AtHand.current {name : QualifiedName} {index : Option Int64} {answer : Value}
    (h : env.AtHand name index answer) : env.Current name := by
  cases h with
  | stored hname hanswer =>
      obtain ⟨value, hvalue⟩ := Option.ne_none_iff_exists'.mp (stored_of_readStored hanswer)
      exact .stored hname hvalue
  | @cached _ slot whole hshape hslot hvalid hpart =>
      obtain ⟨dependency, hname, rfl⟩ := Option.map_eq_some_iff.mp hshape
      rw [statusOf_of_get? hname] at hvalid
      cases hkind : dependency.shape with
      | scalar =>
          rw [hkind, Shape.slot?, Option.some.injEq] at hslot
          exact .scalar hname hkind (hslot ▸ hvalid)
      | itemwise =>
          cases index with
          | none =>
              rw [hkind] at hslot
              cases hslot
          | some position =>
              rw [hkind, Shape.slot?, Option.some.injEq] at hslot
              exact .itemwise hname hkind (hslot ▸ hvalid)

/-- Where a dialogue replays to a value, `post` holds of names that are current. -/
theorem Replays.current {footprint : Footprint} {post : List QualifiedName → Value → Prop}
    {asked : List QualifiedName} {d : Dialogue π (Except Error Value)} {name : QualifiedName}
    {value : Value} (hd : d.Follows footprint post asked) (h : env.Replays name value d) :
    ∃ names, post names value ∧ ∀ read ∈ names, read ∈ asked ∨ env.Current read := by
  induction hd with
  | failed cause => cases h
  | @done asked value hpost =>
      cases h
      exact ⟨asked, hpost, fun _ => Or.inl⟩
  | @read asked read index next hread hfailed hnext ih =>
      cases h with
      | read hanswer hrest =>
          obtain ⟨names, hpost, hnames⟩ := ih _ hrest
          refine ⟨names, hpost, fun other hother => ?_⟩
          rcases hnames other hother with hasked | hcurrent
          · rcases List.mem_cons.mp hasked with rfl | hasked
            · exact Or.inr hanswer.current
            · exact Or.inl hasked
          · exact Or.inr hcurrent
  | assign hname hrest ih =>
      cases h with
      | assign hapart hnext => exact ih (hnext [])
  | store hname hrest ih =>
      cases h with
      | store htarget hnext => exact ih hnext

/-- The inputs of a value are current where its procedure replays to it. -/
theorem Coherent.current {meaning : Meaning π}
    {exempt : QualifiedName → Option Int64 → Value → Prop} (h : env.Coherent meaning exempt)
    (henv : env.Regular meaning) {name : QualifiedName} {dependency : Dependency π}
    {slot : Option Int64} {value : Value} (hname : env.dependencies.get? name = some dependency)
    (hvalid : dependency.status slot = .valid value) (hexempt : ¬exempt name slot value)
    {read : QualifiedName} (hread : read ∈ dependency.reads) : env.Current read := by
  obtain ⟨footprint, -, -, hfollows⟩ := henv.disciplined name dependency hname
  obtain ⟨names, hasked, hnames⟩ :=
    (h name dependency slot value hname hvalid hexempt).current (hfollows slot)
  exact (hnames read (hasked hread)).resolve_left List.not_mem_nil

/-- A scalar dependency without a value is not current. -/
theorem not_current_of_uninitialized {name : QualifiedName} {dependency : Dependency π}
    (hname : env.dependencies.get? name = some dependency) (hshape : dependency.shape = .scalar)
    (hstatus : env.statusOf name none = .uninitialized) : ¬env.Current name := by
  rw [statusOf_of_get? hname] at hstatus
  intro h
  cases h with
  | stored hnone hstored =>
      rw [hname] at hnone
      cases hnone
  | scalar hother hscalar hvalid =>
      obtain rfl := Option.some.inj (hname.symm.trans hother)
      rw [hstatus] at hvalid
      cases hvalid
  | itemwise hother hitemwise hvalid =>
      obtain rfl := Option.some.inj (hname.symm.trans hother)
      rw [hshape] at hitemwise
      cases hitemwise

/-- The inputs of a value are known, whether or not its procedure replays to it. -/
theorem ValuesGrounded.known (h : env.ValuesGrounded) (hindexed : env.Indexed)
    {name : QualifiedName} {dependency : Dependency π} {slot : Option Int64} {value : Value}
    (hname : env.dependencies.get? name = some dependency)
    (hvalid : dependency.status slot = .valid value) {read : QualifiedName}
    (hread : read ∈ dependency.reads) : env.Known read := by
  rw [← statusOf_of_get? hname] at hvalid
  exact h name slot value hvalid read (reaches_of_mem_reads hindexed hname hread .refl)

end Environment

namespace Session

open Environment

/-- Between any two steps of a session, each variable that a dependency with a value reads has a
dependency or a stored value; and it has a value itself, unless the value of the dependency that
reads it is that of a recompute that a positive multiple of `2 ^ 64` cascades have overtaken. The
procedures may assign any variables. -/
theorem reads_current {config : Config} {context : ContextPath} {before rest : List Step}
    (h : permits (fun _ => true) (before ++ rest) (.initial config context) = true) :
    ∃ reports env, takeAll before (.initial config context) = some (reports, env) ∧
      ∀ name dependency slot value, env.dependencies.get? name = some dependency →
        dependency.status slot = .valid value → ∀ read ∈ dependency.reads,
          env.Known read ∧
          (¬(initial config context).Lapped Procedure.dialogue
              (momentsOf before (.initial config context)) name slot value →
            env.Current read) := by
  obtain ⟨reports, env, htake, haccounted⟩ :=
    takeAll_accounted (permits_of_append h) (accounted_initial config context)
  refine ⟨reports, env, htake, fun name dependency slot value hname hvalid read hread => ⟨?_, ?_⟩⟩
  · exact haccounted.grounded.known haccounted.regular.indexed hname hvalid hread
  · intro hlapped
    exact haccounted.coherent.current haccounted.regular hname hvalid hlapped hread

/-- A variable over an itemwise one and over another that reads it as well. The itemwise one is
defined anew after the first read, and the bodies assign. -/
def rebuilding : Session where
  config := ⟨.replace⟩
  context := .root
  steps :=
    [.assign (.written "y") (.int 2),
      .define (.ofBody "v" (some "i")
        (.sequence [.assign ".last" (.name "i"), .binary .multiply (.name "y") (.name "i")]) "")
        none,
      .define (.ofBody "w" none
        (.binary .add (.item (.name "v") (.constant (.int 3))) (.name "y")) "") none,
      .define (.ofBody "x" none
        (.sequence [.assign "x" (.name "w"), .assign ".seen" (.name "w"),
          .binary .add (.name "w") (.item (.name "v") (.constant (.int 1)))]) "") none,
      .read (.written "w") none,
      .define (.ofBody "v" (some "i") (.binary .add (.name "y") (.name "i")) "") none,
      .read (.written "x") none]

theorem reads_current_rebuilding :
    ∃ reports env, takeAll rebuilding.steps (.initial rebuilding.config rebuilding.context) =
        some (reports, env) ∧
      ∃ dependency value, env.dependencies.get? ⟨.root, "x"⟩ = some dependency ∧
        dependency.status none = .valid value ∧
        dependency.reads = [⟨.root, "w"⟩, ⟨.root, "v"⟩] ∧
        env.Current ⟨.root, "w"⟩ ∧ env.Current ⟨.root, "v"⟩ := by
  have hpermits : permits (fun _ => true) (rebuilding.steps ++ [])
      (.initial rebuilding.config rebuilding.context) = true := by
    decide +kernel
  obtain ⟨reports, env, htake, hcurrent⟩ := reads_current hpermits
  have hcomputed : ((takeAll rebuilding.steps
      (.initial rebuilding.config rebuilding.context)).bind fun outcome =>
      (outcome.2.dependencies.get? ⟨.root, "x"⟩).bind fun dependency =>
        ((dependency.status none).value?).map fun _ =>
          decide (dependency.reads = [⟨.root, "w"⟩, ⟨.root, "v"⟩])) = some true := by
    decide +kernel
  have hshort : (momentsOf rebuilding.steps
      (.initial rebuilding.config rebuilding.context)).length < UInt64.size := by
    decide +kernel
  rw [htake, Option.bind_some] at hcomputed
  obtain ⟨dependency, hname, hstatus⟩ := Option.bind_eq_some_iff.mp hcomputed
  obtain ⟨value, hvalue, hdecided⟩ := Option.map_eq_some_iff.mp hstatus
  have hreads := of_decide_eq_true hdecided
  have hvalid := Status.value?_eq_some hvalue
  have hinputs : ∀ read ∈ dependency.reads, env.Current read := fun read hread =>
    (hcurrent _ dependency none value hname hvalid read hread).2 fun hlapped =>
      Nat.not_le_of_lt hshort hlapped.size_le_length
  exact ⟨reports, env, htake, dependency, value, hname, hvalid, hreads,
    hinputs _ (by simp [hreads]), hinputs _ (by simp [hreads])⟩

/-- Not every value rests on current inputs: one that a lapped recompute has left may read a
variable that has none. -/
theorem exists_value_over_emptied :
    permits (fun _ => true) lapping (.initial .standard .root) = true ∧
      ∃ reports env, takeAll lapping (.initial .standard .root) = some (reports, env) ∧
        ∃ dependency, env.dependencies.get? ⟨.root, "x"⟩ = some dependency ∧
          dependency.status none = .valid (.int 1) ∧ ⟨.root, "a"⟩ ∈ dependency.reads ∧
          ¬env.Current ⟨.root, "a"⟩ := by
  obtain ⟨reports, env, htake, dependency, -, hname, hvalid, -, hreader, hcopied, hempty⟩ :=
    takeAll_lapping
  obtain ⟨aside, haside, hshape, -⟩ := hcopied
  refine ⟨permits_lapping, reports, env, htake, dependency, hname, hvalid, ?_,
    not_current_of_uninitialized haside hshape hempty⟩
  obtain ⟨_, other, hother, haccounted⟩ :=
    takeAll_accounted permits_lapping (accounted_initial .standard .root)
  rw [htake, Option.some.injEq, Prod.mk.injEq] at hother
  obtain ⟨-, rfl⟩ := hother
  obtain ⟨reader, hreader, hread⟩ :=
    (haccounted.regular.indexed ⟨.root, "a"⟩ ⟨.root, "x"⟩).mp hreader
  rwa [← Option.some.inj (hname.symm.trans hreader)] at hread

end Session
end Memograph
