import Memograph.Proofs.Cycles
import Memograph.Proofs.Lifecycle

/-! Calls that come back to a running recompute. A call finds that its slot is being recomputed from
the mark of the slot, and looks for the recompute by the name and the index of its frames. Frames
of one name can be those of different dependencies, where the name was registered anew in between.
But of these the inner ones are the later, so the innermost one of the slot is that of the
dependency which has the name, whenever this one is being recomputed. -/

namespace Memograph

variable {π : Type}

namespace Environment

/-! ### Frames of one name -/

/-- Whether among the frames of a name the inner ones are of later dependencies, and the name is
registered to none that is earlier. -/
structure Stacked (env : Environment π) : Prop where
  inwards : env.stack.Pairwise fun inner outer =>
    inner.name = outer.name → outer.serial ≤ inner.serial
  latest : ∀ frame ∈ env.stack, ∀ dependency,
    env.dependencies.get? frame.name = some dependency → frame.serial ≤ dependency.serial

section Steps

variable {env after : Environment π} {event : Event π}

/-- A name passes to a dependency with a higher serial number than any before. -/
theorem Stacked.latest_apply (h : env.Stacked) (hidentified : env.Identified)
    (henabled : event.Enabled env) :
    ∀ frame ∈ env.stack, ∀ dependency,
      (event.apply env).dependencies.get? frame.name = some dependency →
        frame.serial ≤ dependency.serial := by
  intro frame hframe dependency hname
  by_cases hinstalls : event.installs? env = some frame.name
  · obtain ⟨new, hnew, hserial, -⟩ := hidentified.get?_apply_of_installs hinstalls
    obtain rfl : dependency = new := Option.some.inj (hname.symm.trans hnew)
    rw [hserial]
    exact Nat.le_of_lt (hidentified.begun frame hframe)
  · rw [hidentified.get?_apply henabled hinstalls, Option.map_eq_some_iff] at hname
    obtain ⟨before, hbefore, rfl⟩ := hname
    rw [Event.serial_alter]
    exact h.latest frame hframe before hbefore

/-- Every event keeps the frames of a name in order. -/
theorem Stacked.apply (h : env.Stacked) (hidentified : env.Identified)
    (henabled : event.Enabled env) : (event.apply env).Stacked := by
  have hlatest := h.latest_apply hidentified henabled
  cases event with
  | asked request =>
      have hstack : (Event.apply env (.asked request)).stack = env.stack :=
        env.stack_effect request
      constructor
      · rw [hstack]
        exact h.inwards
      · rw [hstack]
        exact hlatest
  | began launch =>
      have hregistered := henabled.registered
      constructor
      case inwards =>
        refine List.Pairwise.cons (fun frame hframe hname => ?_) h.inwards
        exact h.latest frame hframe launch.dependency (hname ▸ hregistered)
      case latest =>
        intro frame hframe
        rcases List.mem_cons.mp hframe with rfl | hframe
        · intro dependency hname
          rw [hidentified.get?_apply henabled nofun] at hname
          change (env.dependencies.get? launch.name).map _ = _ at hname
          rw [hregistered, Option.map_some, Option.some.injEq] at hname
          rw [← hname, Event.serial_alter]
        · exact hlatest frame hframe
  | ended launch result =>
      have hstack : (Event.apply env (.ended launch result)).stack = env.stack.tail :=
        env.stack_finish launch.name launch.dependency.serial launch.dependency.epoch launch.slot
          result
      constructor
      · rw [hstack]
        exact h.inwards.tail
      · rw [hstack]
        exact fun frame hframe => hlatest frame (List.mem_of_mem_tail hframe)

theorem Stacked.path (h : env.Stacked) (hidentified : env.Identified) {events : List (Event π)}
    (hpath : Path env events after) : after.Stacked :=
  (hpath.invariant (I := fun env => env.Identified ∧ env.Stacked)
    (fun henabled henv => ⟨henv.1.apply henabled, henv.2.apply henv.1 henabled⟩)
    ⟨hidentified, h⟩).2

end Steps

variable {env : Environment π} {meaning : Meaning π}

theorem Occurs.stacked (h : env.Occurs meaning) : env.Stacked := by
  obtain ⟨first, α, d, depth, events, hfirst, hevents, rfl⟩ := h
  obtain ⟨hlifecycle, hstack⟩ := hfirst.lifecycle_and_stack
  have hempty : first.cleared.stack = [] := hstack
  have hstacked : first.cleared.Stacked := by
    constructor
    · rw [hempty]
      exact List.Pairwise.nil
    · rw [hempty]
      exact fun _ hframe => absurd hframe List.not_mem_nil
  exact hstacked.path hlifecycle.cleared.toIdentified (path_of_history hevents)

/-! ### Calls -/

section Calls

variable {run : Runner π (Except Error Value)} {name : QualifiedName}
  {dependency : Dependency π} {index slot : Option Int64}

theorem evaluate_of_evaluating (hname : env.dependencies.get? name = some dependency)
    (hslot : dependency.shape.slot? index = some slot)
    (hstatus : dependency.status slot = .evaluating) :
    env.evaluate run meaning name index =
      some (.error (.circularDependency name (env.chain name slot)), env) := by
  rw [evaluate_eq_read hname, read_of_slot? hname hslot, compute, hstatus]
  rfl

/-- Whether a call starts no recompute and fails with a cycle. -/
structure RaisesCycle (run : Runner π (Except Error Value)) (meaning : Meaning π)
    (env : Environment π) (name : QualifiedName) (index : Option Int64) (key : QualifiedName)
    (chain : List QualifiedName) : Prop where
  unstarted : (Request.evaluate name index).launch? env = none
  failed : ∃ after,
    env.evaluate run meaning name index = some (.error (.circularDependency key chain), after)

theorem RaisesCycle.evaluating {key : QualifiedName} {chain : List QualifiedName}
    (h : env.RaisesCycle run meaning name index key chain)
    (hname : env.dependencies.get? name = some dependency)
    (hslot : dependency.shape.slot? index = some slot) :
    dependency.status slot = .evaluating := by
  obtain ⟨after, hfailed⟩ := h.failed
  cases hstatus : dependency.status slot with
  | evaluating => rfl
  | uninitialized =>
      have hstarted := launch?_read_eq_none_iff.mp h.unstarted dependency slot hname hslot
      exact absurd hstatus hstarted
  | valid value =>
      -- A part of a value may be missing, but that is no cycle.
      rw [evaluate_eq_read hname, read_of_slot? hname hslot, compute, hstatus] at hfailed
      have hpart : dependency.shape.part index value =
          .error (.circularDependency key chain) :=
        congrArg Prod.fst (Option.some.inj hfailed)
      have hother := fails_part (T := fun cause => cause.isCycle = false) (fun _ hcause => hcause)
        dependency.shape index value _ hpart
      cases hother

/-- What a call for a slot comes to, seen from the stack. -/
structure Detects (run : Runner π (Except Error Value)) (meaning : Meaning π)
    (env : Environment π) (name : QualifiedName) (index : Option Int64)
    (dependency : Dependency π) (slot : Option Int64) : Prop where
  raised_iff : (∃ key chain, env.RaisesCycle run meaning name index key chain) ↔
    (dependency.serial, slot) ∈ env.stack.map Frame.key
  /-- The chain leads from the only frame of the slot to the innermost one, and back. -/
  reported : ∀ key chain, env.RaisesCycle run meaning name index key chain → key = name ∧
    ∃ inner frame outer, env.stack = inner ++ frame :: outer ∧ frame.name = name ∧
      frame.key = (dependency.serial, slot) ∧
      (∀ other ∈ inner ++ outer, other.key ≠ (dependency.serial, slot)) ∧
      chain = ((inner ++ [frame]).map Frame.name).reverse ++ [name] ∧ 2 ≤ chain.length

/-- The innermost frame of the name and index of a slot is that of the slot, if it has any. -/
theorem Stacked.key_eq (h : env.Stacked) (hidentified : env.Identified)
    (hname : env.dependencies.get? name = some dependency)
    (hkey : (dependency.serial, slot) ∈ env.stack.map Frame.key)
    {inner outer : List Frame} {frame : Frame} (hstack : env.stack = inner ++ frame :: outer)
    (hframe : frame.name = name) (hindex : frame.index = slot)
    (hinner : ∀ other ∈ inner, ¬(other.name = name ∧ other.index = slot)) :
    frame.key = (dependency.serial, slot) := by
  obtain ⟨own, hown, heq⟩ := List.mem_map.mp hkey
  obtain ⟨hserial, hslot⟩ := Prod.mk.inj heq
  have hsame : name = own.name := hidentified.owned own hown name dependency hname hserial.symm
  have hmem : frame ∈ env.stack := by
    rw [hstack]
    exact List.mem_append_right _ List.mem_cons_self
  have hle : frame.serial ≤ dependency.serial :=
    h.latest frame hmem dependency (by rw [hframe, hname])
  have hge : dependency.serial ≤ frame.serial := by
    rw [hstack] at hown
    rcases List.mem_append.mp hown with hown | hown
    · exact absurd ⟨hsame.symm, hslot⟩ (hinner own hown)
    · rcases List.mem_cons.mp hown with rfl | hown
      · exact hserial.ge
      · have hinwards := h.inwards
        rw [hstack, List.pairwise_append, List.pairwise_cons] at hinwards
        rw [← hserial]
        exact hinwards.2.1.1 own hown (hframe.trans hsame)
  exact Prod.ext (Nat.le_antisymm hle hge) hindex

/-- A call for a slot is refused as a cycle exactly if the slot itself is being recomputed. Neither
another slot of the dependency counts, nor one of a dependency that had the name before. -/
theorem Occurs.detects (h : env.Occurs meaning)
    (hname : env.dependencies.get? name = some dependency)
    (hslot : dependency.shape.slot? index = some slot) (run : Runner π (Except Error Value)) :
    env.Detects run meaning name index dependency slot where
  raised_iff := by
    rw [← h.lifecycle.evaluating_iff hname]
    constructor
    · rintro ⟨key, chain, hraises⟩
      exact hraises.evaluating hname hslot
    · intro hstatus
      refine ⟨name, env.chain name slot, ?_, env, evaluate_of_evaluating hname hslot hstatus⟩
      refine launch?_read_of_status hname hslot fun hempty => ?_
      rw [hstatus] at hempty
      cases hempty
  reported := by
    intro key chain hraises
    have hstatus := hraises.evaluating hname hslot
    obtain ⟨after, hfailed⟩ := hraises.failed
    rw [evaluate_of_evaluating hname hslot hstatus] at hfailed
    cases hfailed
    have hkey := (h.lifecycle.evaluating_iff hname slot).mp hstatus
    have hunderway : (name, slot) ∈ env.underway := by
      obtain ⟨own, hown, heq⟩ := List.mem_map.mp hkey
      obtain ⟨hserial, hindex⟩ := Prod.mk.inj heq
      refine List.mem_map.mpr ⟨own, hown, Prod.ext ?_ hindex⟩
      exact (h.lifecycle.owned own hown name dependency hname hserial.symm).symm
    obtain ⟨inner, frame, outer, hstack, hframe, hindex, hinner, hchain⟩ :=
      exists_chain hunderway
    have hown := h.stacked.key_eq h.lifecycle.toIdentified hname hkey hstack hframe hindex hinner
    refine ⟨rfl, inner, frame, outer, hstack, hframe, hown, ?_, hchain, ?_⟩
    · have hfound := h.lifecycle.frames
      rw [hstack, List.map_append, List.map_cons, hown] at hfound
      intro other hother heq
      have hnot := (List.nodup_middle.mp hfound).notMem
      rw [← List.map_append] at hnot
      exact hnot (List.mem_map.mpr ⟨other, hother, heq⟩)
    · rw [hchain]
      simp

end Calls
end Environment

/-- A variable whose procedure defines it anew, by items that all ask for the second one, and then
asks for the first of them. -/
def Session.reentering : Session where
  config := ⟨.replace⟩
  context := .root
  steps :=
    [.register (.written "x") .scalar []
      [.register (.written "x") .itemwise []
        [.evaluate (.written "x") (some (.position 1))] ⟨none, none, none⟩,
        .evaluate (.written "x") (some (.position 0))]
      ⟨none, none, none⟩]

/-- While the second item is recomputed inside of the first one, a call for the first one is
refused with the names of both, and one for a third is not. -/
theorem Environment.Occurs.detects_reentering :
    ∃ env : Environment Procedure, env.Occurs Procedure.dialogue ∧
      env.stack.map Frame.key = [(1, some 1), (1, some 0), (0, none)] ∧
      ∀ run, (∃ key, env.RaisesCycle run Procedure.dialogue ⟨.root, "x"⟩ (some 0) key
          [⟨.root, "x"⟩, ⟨.root, "x"⟩, ⟨.root, "x"⟩]) ∧
        ¬∃ key chain, env.RaisesCycle run Procedure.dialogue ⟨.root, "x"⟩ (some 2) key chain := by
  have hcomputed : (Session.reentering.run.map fun outcome =>
      let env := outcome.2.cleared.after ((history Procedure.dialogue 3
        (Step.dialogue 0 (.evaluate (.written "x") none)) outcome.2.cleared).take 10)
      (env.stack, (env.dependencies.get? ⟨.root, "x"⟩).map fun dependency =>
        (dependency.serial, dependency.shape))) =
      some ([⟨1, ⟨.root, "x"⟩, some 1⟩, ⟨1, ⟨.root, "x"⟩, some 0⟩, ⟨0, ⟨.root, "x"⟩, none⟩],
        some (1, .itemwise)) := by
    decide +kernel
  obtain ⟨⟨reports, first⟩, hrun, hcomputed⟩ := Option.map_eq_some_iff.mp hcomputed
  dsimp only at hcomputed
  have hoccurs : (first.cleared.after ((history Procedure.dialogue 3
      (Step.dialogue 0 (.evaluate (.written "x") none)) first.cleared).take 10)).Occurs
        Procedure.dialogue :=
    ⟨first, Answer, _, 3, _, Session.reachable_of_run hrun, List.take_prefix 10 _, rfl⟩
  generalize first.cleared.after _ = env at hcomputed hoccurs
  obtain ⟨hstack, hcomputed⟩ := Prod.mk.inj hcomputed
  obtain ⟨dependency, hname, hcomputed⟩ := Option.map_eq_some_iff.mp hcomputed
  obtain ⟨hserial, hshape⟩ := Prod.mk.inj hcomputed
  have hslot : ∀ position, dependency.shape.slot? (some position) = some (some position) := by
    rw [hshape]
    exact fun _ => rfl
  refine ⟨env, hoccurs, by rw [hstack]; rfl, fun run => ⟨?_, ?_⟩⟩
  · have hdetects := Occurs.detects hoccurs hname (hslot 0) run
    obtain ⟨key, chain, hraises⟩ := hdetects.raised_iff.mpr (by rw [hserial, hstack]; decide)
    obtain ⟨-, inner, frame, outer, hsplit, -, hown, -, hchain, -⟩ :=
      hdetects.reported key chain hraises
    rw [hstack] at hsplit
    rw [hserial] at hown
    refine ⟨key, ?_⟩
    rcases inner with _ | ⟨inside, _ | ⟨inside', inner⟩⟩
    · cases hsplit
      cases hown
    · cases hsplit
      rwa [hchain] at hraises
    · cases inner with
      | nil =>
          cases hsplit
          cases hown
      | cons other inner => simp at hsplit
  · rw [(Occurs.detects hoccurs hname (hslot 2) run).raised_iff, hserial, hstack]
    decide

end Memograph
