import Memograph.Proofs.Grounding
import Memograph.Proofs.Lapping
import Memograph.Proofs.Towers

/-! Caches that agree with their procedures. A value is at hand where a read is answered without a
recompute. A dialogue replays to a value if each of its reads is at hand, none of its assignments
reaches the dependency that it belongs to, and it ends in the value. The procedure of a slot with a
value replays to that value: a recompute that nothing overtakes leaves all that it read at hand, and
whatever takes a part of it away takes the value away as well. Run again, the procedure therefore
gives the same value, though it may assign variables, its own among them. Only the values of lapped
recomputes, which `2 ^ 64` cascades have overtaken or a multiple of that, stay without agreeing. -/

open Relation

namespace Memograph

namespace Environment

variable {π α : Type} {env after : Environment π}

/-! ### Values at hand -/

/-- Whether a read is answered with a stored value or with that of a slot. -/
inductive AtHand (env : Environment π) (name : QualifiedName) (index : Option Int64)
    (answer : Value) : Prop
  | stored (hname : env.dependencies.get? name = none)
      (hstored : env.readStored name index = .ok answer)
  | cached {shape : Shape} {slot : Option Int64} {whole : Value}
      (hshape : env.shapeOf name = some shape) (hslot : shape.slot? index = some slot)
      (hvalid : env.statusOf name slot = .valid whole)
      (hpart : shape.part index whole = .ok answer)

theorem AtHand.read {name : QualifiedName} {index : Option Int64} {answer : Value}
    (h : env.AtHand name index answer) (run : Runner π (Except Error Value))
    (meaning : Meaning π) : env.read run meaning name index = some (.ok answer, env) := by
  cases h with
  | stored hname hstored => rw [read_of_unregistered hname, hstored]
  | cached hshape hslot hvalid hpart =>
      obtain ⟨dependency, hname, rfl⟩ := Option.map_eq_some_iff.mp hshape
      rw [statusOf_of_get? hname] at hvalid
      rw [read_of_slot? hname hslot, compute, hvalid]
      simp [Except.bind, hpart]

theorem AtHand.of_same {name : QualifiedName} {index : Option Int64} {answer : Value}
    (h : env.AtHand name index answer) (hsame : env.SameDependencies after)
    (hvalid : ∀ slot whole, env.statusOf name slot = .valid whole →
      after.statusOf name slot = .valid whole)
    (hstored : env.dependencies.get? name = none →
      after.stored.get? name = env.stored.get? name) :
    after.AtHand name index answer := by
  cases h with
  | stored hname hanswer =>
      refine .stored ((hsame.get?_eq_none_iff name).mpr hname) ?_
      simpa only [readStored, hstored hname] using hanswer
  | cached hshape hslot hwhole hpart =>
      exact .cached ((hsame.shapeOf name).trans hshape) hslot (hvalid _ _ hwhole) hpart

/-- What a dependency reads stays at hand along a run that does not invalidate the dependency. -/
theorem AtHand.evolves {name reader : QualifiedName} {index : Option Int64} {answer : Value}
    {dependency : Dependency π} (h : env.AtHand name index answer) (hevolves : env.Evolves after)
    (hreader : env.dependencies.get? reader = some dependency) (hread : name ∈ dependency.reads)
    (hepoch : after.epochOf reader = env.epochOf reader) : after.AtHand name index answer := by
  refine h.of_same hevolves.same (fun slot whole hvalid => ?_) fun hname => ?_
  · refine (hevolves.kept name slot whole hvalid).resolve_right fun hgrew => ?_
    have := hevolves.spread name reader dependency hreader hread hgrew
    omega
  · refine (hevolves.stored name reader dependency hreader hread hname).resolve_right ?_
    omega

/-- A successful read leaves its answer at hand, unless it was overtaken. -/
theorem atHand_of_read {meaning : Meaning π} {depth : Nat} {name : QualifiedName}
    {index : Option Int64} {answer : Value} (henv : env.Regular meaning)
    (h : env.read (nested meaning depth) meaning name index = some (.ok answer, after)) :
    after.AtHand name index answer ∨ env.epochOf name < after.epochOf name := by
  rcases read_eq_some h with ⟨hname, hanswer, rfl⟩ | ⟨dependency, hname, hcomputed⟩
  · exact Or.inl (.stored hname hanswer.symm)
  · rcases hcomputed with ⟨-, hanswer, -⟩ | ⟨slot, whole, hslot, hcompute, hanswer⟩
    · cases hanswer
    · rcases compute_eq_some hcompute with
        ⟨value, hstatus, rfl, rfl⟩ | ⟨-, rfl, -⟩ | ⟨-, middle, hrun, rfl⟩
      · rw [← statusOf_of_get? hname] at hstatus
        exact Or.inl (.cached (shapeOf_of_get? hname) hslot hstatus hanswer.symm)
      · cases hanswer
      · cases whole with
        | error cause => cases hanswer
        | ok value =>
            have hevolves := (steady_evolves meaning).nested depth henv hname hrun
            have hsame := (sameDependencies_start hname slot).trans hevolves.same
            obtain ⟨later, hlater, -, hserial⟩ := hsame.get?_eq_some hname
            have hepoch := hevolves.epoch name
            rw [epochOf_start hname, epochOf_of_get? hname, epochOf_of_get? hlater] at hepoch
            rw [← hserial]
            by_cases hkept : Dependency.sameEpoch later.epoch dependency.epoch = true
            · left
              have hshape := (hsame.trans (sameDependencies_finish hlater slot dependency.epoch
                (.ok value))).shapeOf name
              refine .cached (hshape.trans (shapeOf_of_get? hname)) hslot ?_ hanswer.symm
              rw [statusOf_finish hlater, if_pos ⟨rfl, rfl⟩]
              dsimp only
              rw [if_pos hkept]
            · right
              have hne : later.epoch ≠ dependency.epoch := by
                intro heq
                exact hkept (by simp [Dependency.sameEpoch, heq])
              rw [epochOf_finish hlater, epochOf_of_get? hname, epochOf_of_get? hlater]
              omega

/-! ### Replays -/

/-- Whether a dialogue of a dependency reads only what is at hand, assigns nothing that reaches
the dependency, and ends in a value. -/
inductive Replays (env : Environment π) (name : QualifiedName) (value : Value) :
    Dialogue π (Except Error Value) → Prop
  | done : Replays env name value (.done (.ok value))
  | read {read : QualifiedName} {index : Option Int64} {answer : Value}
      {next : Except Error Value → Dialogue π (Except Error Value)}
      (hanswer : env.AtHand read index answer)
      (hnext : Replays env name value (next (.ok answer))) :
      Replays env name value (.ask (.read read index) next)
  | assign {target : QualifiedName} {written : Value}
      {next : List QualifiedName → Dialogue π (Except Error Value)}
      (hapart : ¬env.Reaches target name) (hnext : ∀ names, Replays env name value (next names)) :
      Replays env name value (.ask (.assign target written) next)
  | store {target : QualifiedName} {written : Value}
      {next : Unit → Dialogue π (Except Error Value)}
      (htarget : env.dependencies.get? target ≠ none) (hnext : Replays env name value (next ())) :
      Replays env name value (.ask (.store target written) next)

section Replaying

variable {footprint : Footprint} {post : List QualifiedName → Value → Prop}
  {asked : List QualifiedName} {d : Dialogue π (Except Error Value)} {name : QualifiedName}
  {value : Value}

theorem Replays.transfer (hd : d.Follows footprint post asked) (h : env.Replays name value d)
    (hreads : ∀ read ∈ footprint.reads, ∀ index answer,
      env.AtHand read index answer → after.AtHand read index answer)
    (hreaches : ∀ target, after.Reaches target name → env.Reaches target name)
    (howns : ∀ target, env.dependencies.get? target ≠ none →
      after.dependencies.get? target ≠ none) :
    after.Replays name value d := by
  induction hd with
  | failed cause => cases h
  | done hpost =>
      cases h
      exact .done
  | read hname hfailed hnext ih =>
      cases h with
      | read hanswer hrest => exact .read (hreads _ hname _ _ hanswer) (ih _ hrest)
  | assign hname hrest ih =>
      cases h with
      | assign hapart hnext => exact .assign (mt (hreaches _) hapart) fun names => ih (hnext names)
  | store hname hrest ih =>
      cases h with
      | store htarget hnext => exact .store (howns _ htarget) (ih hnext)

/-- A replay outlasts all that does not invalidate its dependency. -/
theorem Replays.evolves {dependency : Dependency π} (hd : d.Follows footprint post asked)
    (h : env.Replays name value d) (hevolves : env.Evolves after)
    (hname : env.dependencies.get? name = some dependency)
    (hreads : footprint.reads ⊆ dependency.reads)
    (hepoch : after.epochOf name = env.epochOf name) : after.Replays name value d := by
  refine h.transfer hd (fun read hread index answer hanswer => ?_) (fun target htarget => ?_) ?_
  · exact hanswer.evolves hevolves hname (hreads hread) hepoch
  · rwa [hevolves.same.reaches] at htarget
  · exact fun target => mt (hevolves.same.get?_eq_none_iff target).mp

/-- What replays to a value gives the value when it is run. -/
theorem Replays.converse {meaning : Meaning π} {dependency : Dependency π}
    (hd : d.Follows footprint post asked) (h : env.Replays name value d)
    (hindexed : env.Indexed) (hname : env.dependencies.get? name = some dependency)
    (hreads : footprint.reads ⊆ dependency.reads) (run : Runner π (Except Error Value)) :
    ∃ after, Environment.converse (respond run meaning) d env = some (.ok value, after) := by
  induction hd generalizing env dependency with
  | failed cause => cases h
  | done hpost =>
      cases h
      exact ⟨env, rfl⟩
  | @read asked read index next hread hfailed hnext ih =>
      cases h with
      | read hanswer hrest =>
          obtain ⟨after, hrun⟩ := ih _ hrest hindexed hname hreads
          exact ⟨after, (converse_read (hanswer.read run meaning) next).trans hrun⟩
  | @assign asked target written rest htarget hrest ih =>
      cases h with
      | assign hapart hnext =>
          have hevolves := evolves_assign hindexed target written
          have hepoch : (env.assign target written).2.epochOf name = env.epochOf name :=
            epochOf_notify_of_not_reaches (env.store target written) hapart
          obtain ⟨later, hlater, heq, -⟩ := hevolves.same.get?_eq_some hname
          exact ih ((hnext []).evolves hrest hevolves hname hreads hepoch)
            (hevolves.same.indexed hindexed) hlater (heq ▸ hreads)
  | @store asked target written rest htarget hrest ih =>
      cases h with
      | store hregistered hnext =>
          obtain ⟨other, hother⟩ := Option.ne_none_iff_exists'.mp hregistered
          have hevolves := evolves_store hother written
          obtain ⟨later, hlater, heq, -⟩ := hevolves.same.get?_eq_some hname
          exact ih (hnext.evolves hrest hevolves hname hreads rfl)
            (hevolves.same.indexed hindexed) hlater (heq ▸ hreads)

/-- A successful run that does not invalidate the dependency it belongs to can be replayed. -/
theorem replays_of_converse {meaning : Meaning π} {depth : Nat} {dependency : Dependency π}
    (hd : d.Follows footprint post asked) (henv : env.Regular meaning)
    (howns : env.Owns footprint.stores) (hname : env.dependencies.get? name = some dependency)
    (hreads : footprint.reads ⊆ dependency.reads)
    (hrun : converse (respond (nested meaning depth) meaning) d env = some (.ok value, after))
    (hepoch : after.epochOf name = env.epochOf name) : after.Replays name value d := by
  have hwhole : ∀ {env : Environment π} {asked : List QualifiedName}
      {d : Dialogue π (Except Error Value)}, d.Follows footprint post asked → env.Regular meaning →
      env.Owns footprint.stores →
      Environment.converse (respond (nested meaning depth) meaning) d env =
        some (.ok value, after) → env.Evolves after := fun hd henv howns hrun =>
    (steady_evolves meaning).converse (steady_evolves meaning).read hd henv howns hrun
  induction hd generalizing env dependency with
  | failed cause => cases hrun
  | done hpost =>
      cases hrun
      exact .done
  | @read asked read index next hread hfailed hnext ih =>
      obtain ⟨answer, middle, hreply, hlast⟩ := converse_ask_eq_some hrun
      cases answer with
      | error cause =>
          rw [hfailed] at hlast
          cases hlast
      | ok answer =>
          have hstep : env.Evolves middle := (steady_evolves meaning).read henv hreply
          have henv' := hstep.same.regular henv
          have howns' := hstep.same.owns howns
          have hrest := hwhole (hnext answer) henv' howns' hlast
          obtain ⟨later, hlater, heq, -⟩ := hstep.same.get?_eq_some hname
          have hbefore := hstep.epoch name
          have hafter := hrest.epoch name
          refine .read ?_ (ih answer henv' howns' hlater (heq ▸ hreads) hlast (by omega))
          have hhand : middle.AtHand read index answer := by
            refine (atHand_of_read henv hreply).resolve_right fun hgrew => ?_
            have := hstep.spread read name dependency hname (hreads hread) hgrew
            omega
          exact hhand.evolves hrest hlater (heq ▸ hreads hread) (by omega)
  | @assign asked target written rest htarget hrest ih =>
      have hstep := evolves_assign henv.indexed target written
      have henv' := hstep.same.regular henv
      have howns' := hstep.same.owns howns
      have hlast := hwhole hrest henv' howns' hrun
      obtain ⟨later, hlater, heq, -⟩ := hstep.same.get?_eq_some hname
      have hbefore := hstep.epoch name
      have hafter := hlast.epoch name
      refine .assign (fun hreaches => ?_) fun _ =>
        ih henv' howns' hlater (heq ▸ hreads) hrun (by omega)
      rw [(hstep.same.trans hlast.same).reaches] at hreaches
      have hgrew : (env.assign target written).2.epochOf name = env.epochOf name + 1 :=
        epochOf_notify_of_reaches (env.store target written) hreaches hname
      omega
  | @store asked target written rest htarget hrest ih =>
      obtain ⟨other, hother⟩ := howns target htarget
      have hstep := evolves_store hother written
      have henv' := hstep.same.regular henv
      have howns' := hstep.same.owns howns
      have hlast := hwhole hrest henv' howns' hrun
      obtain ⟨later, hlater, heq, -⟩ := hstep.same.get?_eq_some hname
      have hbefore := hstep.epoch name
      have hafter := hlast.epoch name
      refine .store ?_ (ih henv' howns' hlater (heq ▸ hreads) hrun (by omega))
      rw [ne_eq, (hstep.same.trans hlast.same).get?_eq_none_iff, hother]
      exact Option.some_ne_none other

end Replaying

/-! ### Coherent caches -/

/-- Whether each procedure replays to the values of its slots, but for some. -/
def Coherent (meaning : Meaning π) (exempt : QualifiedName → Option Int64 → Value → Prop)
    (env : Environment π) : Prop :=
  ∀ name dependency slot value, env.dependencies.get? name = some dependency →
    dependency.status slot = .valid value → ¬exempt name slot value →
      env.Replays name value (meaning dependency.procedure slot)

section Keeping

variable {meaning : Meaning π} {exempt exempt' : QualifiedName → Option Int64 → Value → Prop}

theorem Coherent.imp (h : env.Coherent meaning exempt)
    (himp : ∀ name slot value, env.statusOf name slot = .valid value →
      exempt name slot value → exempt' name slot value) : env.Coherent meaning exempt' := by
  intro name dependency slot value hname hvalid hexempt
  refine h name dependency slot value hname hvalid fun hold => hexempt ?_
  exact himp name slot value ((statusOf_of_get? hname slot).trans hvalid) hold

theorem Coherent.replays (h : env.Coherent meaning exempt) (hsame : env.SameDependencies after)
    {name : QualifiedName} {later : Dependency π} {slot : Option Int64} {value : Value}
    (hlater : after.dependencies.get? name = some later)
    (hvalid : env.statusOf name slot = .valid value) (hexempt : ¬exempt name slot value) :
    env.Replays name value (meaning later.procedure slot) := by
  obtain ⟨dependency, hname, heq, -⟩ := hsame.symm.get?_eq_some hlater
  rw [statusOf_of_get? hname] at hvalid
  have hprocedure : dependency.procedure = later.procedure := congrArg Registration.procedure heq
  rw [← hprocedure]
  exact h name dependency slot value hname hvalid hexempt

/-- Coherence outlasts what takes away the values of all that it invalidates. -/
theorem Coherent.evolves (h : env.Coherent meaning exempt) (henv : env.Regular meaning)
    (hevolves : env.Evolves after)
    (hback : ∀ name slot value, after.statusOf name slot = .valid value →
      env.statusOf name slot = .valid value ∧ after.epochOf name = env.epochOf name) :
    after.Coherent meaning exempt := by
  intro name later slot value hlater hvalid hexempt
  rw [← statusOf_of_get? hlater] at hvalid
  obtain ⟨hbefore, hsameEpoch⟩ := hback name slot value hvalid
  obtain ⟨dependency, hname, heq, -⟩ := hevolves.same.symm.get?_eq_some hlater
  obtain ⟨footprint, hreads, -, hfollows⟩ := henv.disciplined name dependency hname
  have hprocedure : dependency.procedure = later.procedure := congrArg Registration.procedure heq
  have hreplays := h.replays hevolves.same hlater hbefore hexempt
  rw [← hprocedure] at hreplays ⊢
  exact hreplays.evolves (hfollows slot) hevolves hname hreads hsameEpoch

theorem Coherent.notify (h : env.Coherent meaning exempt) (henv : env.Regular meaning)
    (name : QualifiedName) : (env.notify name).2.Coherent meaning exempt := by
  refine h.evolves henv (evolves_notify henv.indexed name) fun key slot value hvalid => ?_
  obtain ⟨hapart, hbefore⟩ := env.valid_of_notify hvalid
  exact ⟨hbefore, epochOf_notify_of_not_reaches env hapart⟩

theorem Coherent.assign (h : env.Coherent meaning exempt) (henv : env.Regular meaning)
    (name : QualifiedName) (value : Value) : (env.assign name value).2.Coherent meaning exempt := by
  refine h.evolves henv (evolves_assign henv.indexed name value) fun key slot other hvalid => ?_
  obtain ⟨hapart, hbefore⟩ := (env.store name value).valid_of_notify hvalid
  exact ⟨hbefore, epochOf_notify_of_not_reaches (env.store name value) hapart⟩

theorem Coherent.store (h : env.Coherent meaning exempt) (henv : env.Regular meaning)
    {name : QualifiedName} {dependency : Dependency π}
    (hname : env.dependencies.get? name = some dependency) (value : Value) :
    (env.store name value).Coherent meaning exempt :=
  h.evolves henv (evolves_store hname value) fun _ _ _ hvalid => ⟨hvalid, rfl⟩

theorem Replays.of_same {footprint : Footprint} {post : List QualifiedName → Value → Prop}
    {asked : List QualifiedName} {d : Dialogue π (Except Error Value)} {name : QualifiedName}
    {value : Value} (h : env.Replays name value d) (hd : d.Follows footprint post asked)
    (hsame : env.SameDependencies after)
    (hvalid : ∀ key slot whole, env.statusOf key slot = .valid whole →
      after.statusOf key slot = .valid whole)
    (hstored : after.stored = env.stored) : after.Replays name value d := by
  refine h.transfer hd (fun read _ index answer hanswer => ?_) (fun target htarget => ?_) ?_
  · exact hanswer.of_same hsame (hvalid read) fun _ => by rw [hstored]
  · rwa [hsame.reaches] at htarget
  · exact fun target => mt (hsame.get?_eq_none_iff target).mp

theorem Coherent.start (h : env.Coherent meaning exempt) (henv : env.Regular meaning)
    {name : QualifiedName} {dependency : Dependency π} {slot : Option Int64}
    (hname : env.dependencies.get? name = some dependency)
    (hstatus : dependency.status slot = .uninitialized) :
    (env.start name dependency slot).Coherent meaning exempt := by
  have hsame := sameDependencies_start hname slot
  intro key later index value hlater hvalid hexempt
  rw [← statusOf_of_get? hlater, statusOf_start hname] at hvalid
  split at hvalid
  · cases hvalid
  · obtain ⟨footprint, -, -, hfollows⟩ := (hsame.regular henv).disciplined key later hlater
    refine (h.replays hsame hlater hvalid hexempt).of_same (hfollows index) hsame ?_ rfl
    intro other position whole hwhole
    rw [statusOf_start hname, if_neg]
    · exact hwhole
    · rintro ⟨rfl, rfl⟩
      rw [statusOf_of_get? hname, hstatus] at hwhole
      cases hwhole

/-- The end of a recompute keeps coherence, if the procedure replays to a value that stays, or the
value is exempt. -/
theorem Coherent.finish (h : env.Coherent meaning exempt) (henv : env.Regular meaning)
    {name : QualifiedName} {dependency : Dependency π} {slot : Option Int64} {began : Nat}
    {result : Except Error Value} (hname : env.dependencies.get? name = some dependency)
    (hstatus : dependency.status slot = .evaluating)
    (hresult : ∀ value, result = .ok value →
      Dependency.sameEpoch dependency.epoch began = true → ¬exempt name slot value →
        env.Replays name value (meaning dependency.procedure slot)) :
    (env.finish name dependency.serial began slot result).Coherent meaning exempt := by
  have hsame := sameDependencies_finish hname slot began result
  intro key later index value hlater hvalid hexempt
  rw [← statusOf_of_get? hlater, statusOf_finish hname] at hvalid
  obtain ⟨footprint, -, -, hfollows⟩ := (hsame.regular henv).disciplined key later hlater
  have hreplays : env.Replays key value (meaning later.procedure index) := by
    by_cases hslot : key = name ∧ index = slot
    · rw [if_pos hslot] at hvalid
      obtain ⟨rfl, rfl⟩ := hslot
      obtain ⟨before, hbefore, heq, -⟩ := hsame.symm.get?_eq_some hlater
      rw [hname, Option.some.injEq] at hbefore
      have hprocedure : dependency.procedure = later.procedure := by
        rw [hbefore]
        exact congrArg Registration.procedure heq
      rw [← hprocedure]
      cases result with
      | error cause => cases hvalid
      | ok whole =>
          dsimp only at hvalid
          split at hvalid
          · next hkept =>
              cases hvalid
              exact hresult value rfl hkept hexempt
          · cases hvalid
    · rw [if_neg hslot] at hvalid
      exact h.replays hsame hlater hvalid hexempt
  refine hreplays.of_same (hfollows index) hsame ?_ (by rw [finish_eq hname])
  intro other position whole hwhole
  rw [statusOf_finish hname, if_neg]
  · exact hwhole
  · rintro ⟨rfl, rfl⟩
    rw [statusOf_of_get? hname, hstatus] at hwhole
    cases hwhole

/-- Coherence is kept by every recompute that begins and ends in a regular environment, if its value
is exempt where cascades have overtaken it by a multiple of `2 ^ 64`. -/
theorem Coherent.recompute {middle : Environment π} {launch : Launch π} {depth : Nat}
    {result : Except Error Value} (henv : env.Regular meaning) (henabled : launch.Enabled env)
    (hrun : nested meaning depth (launch.dialogue meaning) (launch.start env) =
      some (result, middle))
    (h : middle.Coherent meaning exempt)
    (hexempt : ∀ value later, result = .ok value →
      middle.dependencies.get? launch.name = some later →
      later.serial = launch.dependency.serial → launch.dependency.epoch < later.epoch →
      Dependency.sameEpoch later.epoch launch.dependency.epoch = true →
        exempt launch.name launch.slot value) :
    (launch.finish middle result).Coherent meaning exempt := by
  have hname := henabled.registered
  have hevolves := (steady_evolves meaning).nested depth henv hname hrun
  have hstart := sameDependencies_start hname launch.slot
  have hsame := hstart.trans hevolves.same
  obtain ⟨later, hlater, heq, hserial⟩ := hsame.get?_eq_some hname
  obtain ⟨started, hstarted, hregistration, -⟩ := hstart.get?_eq_some hname
  have hprocedure : later.procedure = launch.dependency.procedure :=
    congrArg Registration.procedure heq
  have hbegan := hevolves.epoch launch.name
  rw [epochOf_start hname, epochOf_of_get? hname, epochOf_of_get? hlater] at hbegan
  rw [Launch.finish, ← hserial]
  refine h.finish (hsame.regular henv) hlater ?_ fun value hvalue hkept hcounted => ?_
  · rw [← statusOf_of_get? hlater, hevolves.running, statusOf_start hname, if_pos ⟨rfl, rfl⟩]
  · have hepoch : later.epoch = launch.dependency.epoch := by
      rcases Nat.eq_or_lt_of_le hbegan with hepoch | hgrew
      · exact hepoch.symm
      · exact absurd (hexempt value later hvalue hlater hserial hgrew hkept) hcounted
    obtain ⟨footprint, hreads, hstores, hfollows⟩ :=
      henv.disciplined launch.name launch.dependency hname
    obtain ⟨inner, -, hinner⟩ := nested_eq_some hrun
    rw [hvalue] at hinner
    rw [hprocedure]
    refine replays_of_converse (hfollows launch.slot) (hstart.regular henv)
      (hstart.owns (owns_of_subset hname hstores)) hstarted ?_ hinner ?_
    · rw [hregistration]
      exact hreads
    · rw [epochOf_start hname, epochOf_of_get? hname, epochOf_of_get? hlater, hepoch]

/-- Whether a run keeps an environment coherent but for the lapped values of all moments so far. -/
structure Carries (meaning : Meaning π) (env : Environment π) (events : List (Event π))
    (after : Environment π) : Prop where
  path : Path env events after
  evolves : env.Evolves after
  coherent : ∀ (first : Environment π) passed, first.through passed = env → env.Lifecycle →
    env.Coherent meaning (first.Lapped meaning passed) →
      after.Coherent meaning (first.Lapped meaning (passed ++ events.map .happens))

/-- A request that is replied to at once adds no lapped value. -/
theorem carries_asked {request : Request π} (hlaunch : request.launch? env = none)
    (hevolves : env.Evolves (request.effect env))
    (h : ∀ exempt, env.Coherent meaning exempt → (request.effect env).Coherent meaning exempt) :
    env.Carries meaning [.asked request] (request.effect env) where
  path := .cons hlaunch (.nil _)
  evolves := hevolves
  coherent := by
    rintro first passed rfl - hcoherent
    refine (h _ hcoherent).imp fun name slot value hvalid hlapped => hlapped.append ?_
    exact (spared_of_asked (fun _ hmem => ⟨request, List.eq_of_mem_singleton hmem⟩) hvalid).2

theorem Carries.trans {middle : Environment π} {first rest : List (Event π)}
    (h : env.Carries meaning first middle) (h' : middle.Carries meaning rest after) :
    env.Carries meaning (first ++ rest) after where
  path := h.path.append h'.path
  evolves := h.evolves.trans h'.evolves
  coherent := by
    intro source passed hpassed hlifecycle hcoherent
    have hmiddle : source.through (passed ++ first.map .happens) = middle := by
      rw [through_append, through_happens, hpassed, h.path.eq_after]
    rw [List.map_append, ← List.append_assoc]
    exact h'.coherent source _ hmiddle (hlifecycle.path h.path)
      (h.coherent source passed hpassed hlifecycle hcoherent)

theorem Carries.recompute {middle : Environment π} {launch : Launch π} {depth : Nat}
    {result : Except Error Value} (henv : env.Regular meaning) (henabled : launch.Enabled env)
    (hrun : nested meaning depth (launch.dialogue meaning) (launch.start env) =
      some (result, middle))
    (h : (launch.start env).Carries meaning
      (innerHistory meaning depth (launch.dialogue meaning) (launch.start env)) middle) :
    env.Carries meaning
      (.began launch :: (innerHistory meaning depth (launch.dialogue meaning) (launch.start env) ++
        [.ended launch result]))
      (launch.finish middle result) := by
  have hstack : middle.stack = launch.frame :: env.stack := h.evolves.stack
  have hended : (Event.ended launch result).Enabled middle := by
    change middle.stack.head? = some launch.frame
    rw [hstack, List.head?_cons]
  constructor
  case path => exact .cons henabled (h.path.concat hended)
  case evolves => exact h.evolves.recompute henabled.registered henabled.empty _ _
  case coherent =>
    rintro first passed rfl hlifecycle hcoherent
    have hbegan : (launch.start (first.through passed)).Coherent meaning
        (first.Lapped meaning (passed ++ [.happens (.began launch)])) :=
      (hcoherent.start henv henabled.registered henabled.empty).imp
        fun key _ _ _ hlapped => hlapped.append (spares_began _ key launch)
    have hmiddle := h.coherent first _ (through_append first passed _)
      (hlifecycle.apply_began henabled) hbegan
    refine .recompute henv henabled hrun (hmiddle.imp fun key _ _ _ hlapped => ?_)
      fun value later hvalue hlater hserial hgrew hkept => ?_
    · have hlonger := hlapped.append (spares_ended _ key launch result)
      simpa using hlonger
    · obtain ⟨inner, rfl, -⟩ := nested_eq_some hrun
      subst hvalue
      refine ⟨passed, launch, inner, [], ?_, rfl, rfl,
        hlifecycle.laps henabled hrun hlater hserial hgrew hkept, rfl⟩
      rw [List.append_nil]
      rfl

theorem steady_carries (meaning : Meaning π) : Steady meaning (Carries meaning) where
  refl := fun env =>
    ⟨.nil env, .refl env, fun _ _ _ _ hcoherent => by rwa [List.map_nil, List.append_nil]⟩
  trans := Carries.trans
  same := fun h => h.evolves.same
  replied := fun {env request} hlaunch heffect => by
    have hcarries : env.Carries meaning [.asked request] (request.effect env) := by
      refine carries_asked hlaunch ?_ fun exempt hcoherent => ?_
      · rw [heffect]
        exact .refl env
      · rwa [heffect]
    rwa [heffect] at hcarries
  assign := fun name value henv =>
    carries_asked rfl (evolves_assign henv.indexed name value)
      fun _ hcoherent => hcoherent.assign henv name value
  store := fun value henv hname =>
    carries_asked rfl (evolves_store hname value)
      fun _ hcoherent => hcoherent.store henv hname value
  recompute := fun _ henv henabled hrun h => .recompute henv henabled hrun h

/-! ### Registrations -/

variable {name : QualifiedName} {registration : Registration π}

theorem Installs.ne_none (h : env.Installs after name registration) {key : QualifiedName}
    (hkey : env.dependencies.get? key ≠ none) : after.dependencies.get? key ≠ none := by
  rw [h.get?]
  split
  · exact Option.some_ne_none _
  · exact hkey

/-- Behind a name that does not lie behind the installed one, everything stays known. -/
theorem Installs.grounded (h : env.Installs after name registration) {key : QualifiedName}
    (hapart : ¬after.Reaches name key) (hkey : env.Grounded key) : after.Grounded key := by
  intro source hsource
  rcases hkey source (h.reaches_of_apart hapart hsource) with hknown | hknown
  · exact Or.inl (h.ne_none hknown)
  · exact Or.inr (by rwa [h.stored])

/-- A dependency that does not lie behind the installed name replays as before. -/
theorem Installs.replays (h : env.Installs after name registration) (hindexed : after.Indexed)
    {key : QualifiedName} {dependency : Dependency π} {slot : Option Int64} {value : Value}
    {footprint : Footprint} {post : List QualifiedName → Value → Prop}
    (hkey : after.dependencies.get? key = some dependency)
    (hreads : footprint.reads ⊆ dependency.reads)
    (hd : (meaning dependency.procedure slot).Follows footprint post [])
    (hapart : ¬after.Reaches name key)
    (hreplays : env.Replays key value (meaning dependency.procedure slot)) :
    after.Replays key value (meaning dependency.procedure slot) := by
  refine hreplays.transfer hd (fun read hread index answer hanswer => ?_)
    (fun _ => h.reaches_of_apart hapart) fun _ => h.ne_none
  have hne : read ≠ name := by
    rintro rfl
    exact hapart (reaches_of_mem_reads hindexed hkey (hreads hread) .refl)
  have hget : after.dependencies.get? read = env.dependencies.get? read := by
    rw [h.get?, if_neg hne]
  cases hanswer with
  | stored hname hstored =>
      refine .stored (hget.trans hname) ?_
      simpa only [readStored, h.stored] using hstored
  | cached hshape hslot hvalid hpart =>
      refine .cached ?_ hslot ?_ hpart
      · rw [shapeOf, hget]
        exact hshape
      · rw [statusOf_congr hget]
        exact hvalid

/-- An installation keeps the replays of whatever does not lie behind the installed name. -/
theorem Coherent.installs (hcoherent : env.Coherent meaning exempt) (henv : env.Regular meaning)
    (h : env.Installs after name registration) (hindexed : after.Indexed) {key : QualifiedName}
    {dependency : Dependency π} {slot : Option Int64} {value : Value}
    (hkey : after.dependencies.get? key = some dependency)
    (hvalid : after.statusOf key slot = .valid value) (hexempt : ¬exempt key slot value)
    (hapart : ¬after.Reaches name key) :
    after.Replays key value (meaning dependency.procedure slot) := by
  obtain ⟨hne, hbefore⟩ := h.of_statusOf_eq_valid hvalid
  have hkey' : env.dependencies.get? key = some dependency := by
    rwa [h.get?, if_neg hne] at hkey
  rw [statusOf_of_get? hkey'] at hbefore
  obtain ⟨footprint, hreads, -, hfollows⟩ := henv.disciplined key dependency hkey'
  exact h.replays hindexed hkey hreads (hfollows slot) hapart
    (hcoherent key dependency slot value hkey' hbefore hexempt)

/-- A name that is not known does not lie before a value. -/
theorem ValuesGrounded.apart (h : env.ValuesGrounded) (hname : ¬env.Known name)
    {key : QualifiedName} {slot : Option Int64} {value : Value}
    (hvalid : env.statusOf key slot = .valid value) : ¬env.Reaches name key :=
  fun hreaches => hname (h key slot value hvalid name hreaches)

theorem coherent_register (hcoherent : env.Coherent meaning exempt) (henv : env.Regular meaning)
    (hgrounded : env.ValuesGrounded)
    (hfirst : env.dependencies.get? name = none → env.stored.get? name = none) :
    (env.register name registration).2.Coherent meaning exempt ∧
      (env.register name registration).2.ValuesGrounded := by
  rcases register_cases env name registration with
    ⟨hname, hregister⟩ | ⟨old, -, -, hregister⟩ | ⟨old, hname, -, hregister⟩
  · have hinstalls := installs_enroll env name registration
    have hunknown : ¬env.Known name := not_known_iff.mpr ⟨hname, hfirst hname⟩
    have hapart : ∀ {key slot value}, (env.enroll name registration).statusOf key slot =
        .valid value → ¬(env.enroll name registration).Reaches name key := by
      intro key slot value hvalid
      rw [reaches_enroll_iff]
      exact hgrounded.apart hunknown (hinstalls.of_statusOf_eq_valid hvalid).2
    rw [hregister]
    refine ⟨fun key dependency slot value hkey hvalid hexempt => ?_, fun key slot value hvalid => ?_⟩
    · rw [← statusOf_of_get? hkey] at hvalid
      exact hcoherent.installs henv hinstalls (indexed_enroll henv.indexed hname) hkey hvalid
        hexempt (hapart hvalid)
    · exact hinstalls.grounded (hapart hvalid)
        (hgrounded key slot value (hinstalls.of_statusOf_eq_valid hvalid).2)
  · rw [hregister]
    exact ⟨hcoherent, hgrounded⟩
  · have hinstalls := installs_supersede env name old registration
    have hindexed : (env.supersede name old registration).Indexed :=
      indexed_supersede henv.indexed hname
    rw [hregister]
    refine ⟨fun key dependency slot value hkey hvalid hexempt => ?_, fun key slot value hvalid => ?_⟩
    · rw [← statusOf_of_get? hkey] at hvalid
      obtain ⟨hkeyapart, hvalid⟩ := valid_of_notify _ hvalid
      rw [notify_get?_of_not_reaches _ hkeyapart] at hkey
      have hkey' : env.dependencies.get? key = some dependency := by
        rwa [hinstalls.get?, if_neg (hinstalls.of_statusOf_eq_valid hvalid).1] at hkey
      obtain ⟨footprint, hreads, -, hfollows⟩ := henv.disciplined key dependency hkey'
      exact (hcoherent.installs henv hinstalls hindexed hkey hvalid hexempt hkeyapart).evolves
        (hfollows slot) (evolves_notify hindexed name) hkey hreads
        (epochOf_notify_of_not_reaches _ hkeyapart)
    · obtain ⟨hkeyapart, hvalid⟩ := valid_of_notify _ hvalid
      refine Evolves.inherited (evolves_notify hindexed name) inherited_grounded ?_
      exact hinstalls.grounded hkeyapart
        (hgrounded key slot value (hinstalls.of_statusOf_eq_valid hvalid).2)

end Keeping

/-! ### Sessions -/

theorem Coherent.frame {meaning : Meaning π}
    {exempt : QualifiedName → Option Int64 → Value → Prop} (h : env.Coherent meaning exempt)
    (henv : env.Regular meaning) (hdependencies : after.dependencies = env.dependencies)
    (hreaders : after.readers = env.readers) (hstored : after.stored = env.stored) :
    after.Coherent meaning exempt := by
  have hsame : env.SameDependencies after := ⟨hreaders, fun _ => by rw [hdependencies]⟩
  intro name dependency slot value hname hvalid hexempt
  rw [hdependencies] at hname
  obtain ⟨footprint, -, -, hfollows⟩ := henv.disciplined name dependency hname
  refine (h name dependency slot value hname hvalid hexempt).of_same (hfollows slot) hsame ?_
    hstored
  intro key index whole hwhole
  have hstatus : after.statusOf key = env.statusOf key := statusOf_congr (by rw [hdependencies])
  rw [hstatus]
  exact hwhole

theorem keptAtOnce_coherent (allowed : Definition → Bool)
    (exempt : QualifiedName → Option Int64 → Value → Prop) :
    KeptAtOnce allowed fun env =>
      env.Coherent Procedure.dialogue exempt ∧ env.ValuesGrounded where
  enter := fun _ horderly h => ⟨h.1.frame horderly.regular rfl rfl rfl, h.2⟩
  clear := fun _ horderly h => ⟨h.1.frame horderly.regular rfl rfl rfl, h.2⟩
  assign := fun name value horderly h =>
    ⟨h.1.assign horderly.regular name value, h.2.assign inherited_grounded name value⟩
  notify := fun name horderly h =>
    ⟨h.1.notify horderly.regular name, h.2.notify inherited_grounded name⟩
  register := fun horderly h _ _ _ hfirst => coherent_register h.1 horderly.regular h.2 hfirst

/-- Whether an environment is coherent between two steps, but for values that were lapped in some
moments which lead to it. -/
structure Accounted (first : Environment Procedure) (moments : List (Moment Procedure))
    (env : Environment Procedure) : Prop extends env.Orderly where
  through : first.through moments = env
  lifecycle : env.Lifecycle
  grounded : env.ValuesGrounded
  coherent : env.Coherent Procedure.dialogue (first.Lapped Procedure.dialogue moments)

theorem accounted_initial (config : Config) (context : ContextPath) :
    (initial config context).Accounted [] (initial config context) where
  toOrderly := orderly_initial config context
  through := rfl
  lifecycle := lifecycle_initial config context
  grounded := fun _ _ _ hvalid => by cases hvalid
  coherent := fun _ _ _ _ hname => by cases hname

section Accounting

variable {allowed : Definition → Bool} {first env after : Environment Procedure}
  {passed : List (Moment Procedure)}

theorem Accounted.turn (h : first.Accounted passed env) :
    first.Accounted (passed ++ [.turn]) env.cleared where
  toOrderly := h.toOrderly.clear []
  through := by
    rw [through_append, h.through]
    rfl
  lifecycle := h.lifecycle.cleared
  grounded := h.grounded
  coherent := by
    have hcoherent : env.cleared.Coherent Procedure.dialogue _ :=
      h.coherent.frame h.regular rfl rfl rfl
    exact hcoherent.imp fun _ _ _ _ hlapped => hlapped.append rfl

theorem Accounted.of_run {α : Type} {d : Exchange α} {result : α} (h : first.Accounted passed env)
    (hrun : env.run Procedure.dialogue d = some (result, after)) (horderly : after.Orderly)
    (hgrounded : after.ValuesGrounded)
    (hcoherent : after.Coherent Procedure.dialogue (first.Lapped Procedure.dialogue (passed ++
      (history Procedure.dialogue env.depthLimit d env).map .happens))) :
    first.Accounted (passed ++ (history Procedure.dialogue env.depthLimit d env).map .happens)
      after := by
  have hpath := (traces_history Procedure.dialogue env.depthLimit d env).path result after hrun
  refine ⟨horderly, ?_, h.lifecycle.path hpath, hgrounded, hcoherent⟩
  rw [through_append, through_happens, h.through, hpath.eq_after]

/-- A permitted step that runs nothing adds no lapped value. -/
theorem Accounted.run_at_once (h : first.Accounted passed env) {step : Step}
    (hstep : step.permitted allowed env = true)
    (hquery : step.query (π := Procedure) env.context = none) :
    ∃ answer after, env.run Procedure.dialogue (step.dialogue 0) = some (answer, after) ∧
      first.Accounted (passed ++
        (history Procedure.dialogue env.depthLimit (step.dialogue 0) env).map .happens) after := by
  obtain ⟨answer, after, hrun, horderly, hcoherent, hgrounded⟩ :=
    Session.run_keptAtOnce (keptAtOnce_coherent allowed (first.Lapped Procedure.dialogue passed))
      hstep hquery h.toOrderly ⟨h.coherent, h.grounded⟩
  have hpath := (traces_history _ env.depthLimit (step.dialogue 0) env).path answer after hrun
  have hasked : ∀ event ∈ history Procedure.dialogue env.depthLimit (step.dialogue 0) env,
      ∃ request, event = .asked request :=
    exists_asked_of_confined (step.confined_of_permitted hstep hquery 0)
  refine ⟨answer, after, hrun, h.of_run hrun horderly hgrounded (hcoherent.imp ?_)⟩
  intro name slot value hvalid hlapped
  refine hlapped.append ?_
  rw [hpath.eq_after] at hvalid
  rw [h.through]
  exact (spared_of_asked hasked hvalid).2

/-- A read or a top-level evaluation accounts for the values that it adds. -/
theorem Accounted.run_query (h : first.Accounted passed env) {step : Step}
    {d : Exchange (Except Error Value)} (hquery : step.query env.context = some d) :
    ∃ answer after, env.run Procedure.dialogue (step.dialogue 0) = some (answer, after) ∧
      first.Accounted (passed ++
        (history Procedure.dialogue env.depthLimit (step.dialogue 0) env).map .happens) after := by
  obtain ⟨footprint, hstores, hfollows⟩ := Step.follows_query hquery
  obtain ⟨result, after, hrun, hevolves⟩ := h.toOrderly.exists_run hfollows hstores
  obtain ⟨looks, hlooks, hhistory⟩ :=
    Step.history_query Procedure.dialogue env hquery env.depthLimit
  have hspares : ∀ name, env.spares name (looks.map .happens) = true := by
    rcases hlooks with rfl | rfl <;> exact fun _ => rfl
  have hthrough : first.through (passed ++ looks.map .happens) = env := by
    rw [through_append, through_happens, h.through]
    rcases hlooks with rfl | rfl <;> rfl
  have hcarries := (steady_carries Procedure.dialogue).runWithin hfollows h.regular
    (env.owns_of_eq_nil hstores) hrun
  have hcoherent := hcarries.coherent first _ hthrough h.lifecycle
    (h.coherent.imp fun name _ _ _ hlapped => hlapped.append (h.through ▸ hspares name))
  have hstep : env.run Procedure.dialogue (step.dialogue 0) = some (.ofResult result, after) := by
    rw [Step.run_query _ _ hquery, hrun, Option.map_some]
  refine ⟨_, after, hstep, h.of_run hstep (hevolves.orderly h.toOrderly) ?_ ?_⟩
  · exact h.grounded.run inherited_grounded hfollows h.regular (env.owns_of_eq_nil hstores) hrun
  · rwa [hhistory, List.map_append, ← List.append_assoc]

end Accounting

end Environment

namespace Session

open Environment

/-- The moments of permitted steps account for all values that their procedures do not replay to. -/
theorem takeAll_accounted {allowed : Definition → Bool} {first env : Environment Procedure}
    {passed : List (Moment Procedure)} {steps : List Step}
    (hsteps : permits allowed steps env = true) (h : first.Accounted passed env) :
    ∃ reports after, takeAll steps env = some (reports, after) ∧
      first.Accounted (passed ++ momentsOf steps env) after := by
  induction steps generalizing passed env with
  | nil =>
      rw [momentsOf, List.append_nil]
      exact ⟨[], env, rfl, h⟩
  | cons step steps ih =>
      rw [permits, Bool.and_eq_true] at hsteps
      have hstep : step.permitted allowed env.cleared = true := by
        have hpermitted := hsteps.1
        cases step <;> exact hpermitted
      obtain ⟨answer, middle, hrun, hmiddle⟩ : ∃ answer after,
          env.cleared.run Procedure.dialogue (step.dialogue 0) = some (answer, after) ∧
          first.Accounted (passed ++ [.turn] ++ (history Procedure.dialogue env.cleared.depthLimit
            (step.dialogue 0) env.cleared).map .happens) after := by
        cases hquery : step.query env.cleared.context with
        | some d => exact h.turn.run_query hquery
        | none => exact h.turn.run_at_once hstep hquery
      have htake := take_of_run hrun
      have hrest := hsteps.2
      rw [htake, Option.all_some] at hrest
      obtain ⟨reports, after, hall, hafter⟩ := ih hrest hmiddle
      refine ⟨_, after, takeAll_cons htake hall, ?_⟩
      rw [momentsOf, hrun]
      simpa using hafter

/-- Between any two steps of a session, the procedure of each slot with a value, run again, gives
that value, unless the value is that of a recompute that a positive multiple of `2 ^ 64` cascades
have overtaken. The procedures may assign any variables. -/
theorem rerun_eq_value {config : Config} {context : ContextPath} {before rest : List Step}
    (h : permits (fun _ => true) (before ++ rest) (.initial config context) = true) :
    ∃ reports env, takeAll before (.initial config context) = some (reports, env) ∧
      ∀ name dependency slot value, env.dependencies.get? name = some dependency →
        dependency.status slot = .valid value →
        ¬(initial config context).Lapped Procedure.dialogue
          (momentsOf before (.initial config context)) name slot value →
          ∃ after, env.run Procedure.dialogue (Procedure.dialogue dependency.procedure slot) =
            some (.ok value, after) := by
  obtain ⟨reports, env, htake, haccounted⟩ :=
    takeAll_accounted (permits_of_append h) (accounted_initial config context)
  refine ⟨reports, env, htake, fun name dependency slot value hname hvalid hlapped => ?_⟩
  obtain ⟨footprint, hreads, -, hfollows⟩ := haccounted.regular.disciplined name dependency hname
  have hreplays := haccounted.coherent name dependency slot value hname hvalid hlapped
  rw [Environment.run, runWithin_eq_converse]
  exact hreplays.converse (hfollows slot) haccounted.regular.indexed hname hreads _

/-- A variable whose body stores its own value and assigns another variable, over an itemwise one
whose body assigns as well. -/
def assigning : List Step :=
  [.assign (.written "y") (.int 2),
    .define (.ofBody "v" (some "i")
      (.sequence [.assign ".last" (.name "i"), .binary .multiply (.name "y") (.name "i")]) "") none,
    .define (.ofBody "x" none
      (.sequence [.assign "x" (.name "y"), .assign ".seen" (.constant (.int 1)),
        .binary .add (.item (.name "v") (.constant (.int 3))) (.name "y")]) "") none,
    .read (.written "x") none, .assign (.written "y") (.int 5), .read (.written "x") none]

theorem rerun_eq_value_assigning :
    ∃ reports env, takeAll assigning (.initial .standard .root) = some (reports, env) ∧
      ∃ dependency value, env.dependencies.get? ⟨.root, "x"⟩ = some dependency ∧
        dependency.status none = .valid value ∧
        ∃ after, env.run Procedure.dialogue (Procedure.dialogue dependency.procedure none) =
          some (.ok value, after) := by
  have hpermits : permits (fun _ => true) (assigning ++ []) (.initial .standard .root) = true := by
    decide +kernel
  obtain ⟨reports, env, htake, hrerun⟩ := rerun_eq_value hpermits
  have hcomputed : ((takeAll assigning (.initial .standard .root)).bind fun outcome =>
      (outcome.2.dependencies.get? ⟨.root, "x"⟩).bind fun dependency =>
        (dependency.status none).value?).isSome = true := by
    decide +kernel
  have hshort : (momentsOf assigning (.initial .standard .root)).length < UInt64.size := by
    decide +kernel
  rw [htake, Option.bind_some] at hcomputed
  obtain ⟨value, hcomputed⟩ := Option.isSome_iff_exists.mp hcomputed
  obtain ⟨dependency, hname, hvalue⟩ := Option.bind_eq_some_iff.mp hcomputed
  have hvalid := Status.value?_eq_some hvalue
  exact ⟨reports, env, htake, dependency, value, hname, hvalid,
    hrerun _ dependency none value hname hvalid fun hlapped =>
      Nat.not_le_of_lt hshort hlapped.size_le_length⟩

/-- Not every value can be had again: one that a lapped recompute has left is out of date. -/
theorem exists_stale_value :
    permits (fun _ => true) lapping (.initial .standard .root) = true ∧
      ∃ reports env, takeAll lapping (.initial .standard .root) = some (reports, env) ∧
        ∃ dependency after, env.dependencies.get? ⟨.root, "x"⟩ = some dependency ∧
          dependency.status none = .valid (.int 1) ∧
          env.run Procedure.dialogue (Procedure.dialogue dependency.procedure none) =
            some (.ok (.int 2), after) := by
  obtain ⟨reports, env, htake, dependency, after, hname, hvalid, hrun, -⟩ := takeAll_lapping
  exact ⟨permits_lapping, reports, env, htake, dependency, after, hname, hvalid, hrun⟩

end Session
end Memograph
