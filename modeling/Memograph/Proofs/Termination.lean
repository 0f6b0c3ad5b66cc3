import Memograph.Proofs.Cycles
import Memograph.Proofs.Runs

/-! Every read of compiled definitions ends. A slot that is being recomputed is not started again,
and no request of a body takes its mark away: assignments and cascades leave it as it is. So the
recomputes that are running on behalf of one read are all of different slots, and they cannot nest
deeper than there are slots, which a scalar dependency has one of and an itemwise one `2 ^ 64`.
Nothing has to be known of the environment for that, and a bound on the depth beyond the number of
slots is never noticed. -/

namespace Memograph

variable {π α : Type}

/-- The slot that a frame is a recompute of. -/
def Frame.entry (frame : Frame) : QualifiedName × Option Int64 := (frame.name, frame.index)

namespace Environment

/-! ### Slots -/

/-- The names of the dependencies of a shape. -/
def namesOf (env : Environment π) (shape : Shape) : List QualifiedName :=
  env.dependencies.keys.filter fun name => env.shapeOf name = some shape

/-- How many slots there are. -/
def slotCount (env : Environment π) : Nat :=
  (env.namesOf .scalar).length + UInt64.size * (env.namesOf .itemwise).length

/-- Whether some frames are recomputes of registered dependencies, no two of one slot. -/
structure Distinct (env : Environment π) (frames : List Frame) : Prop where
  nodup : (frames.map Frame.entry).Nodup
  registered : ∀ frame ∈ frames, ∃ dependency, env.dependencies.get? frame.name = some dependency ∧
    dependency.serial = frame.serial ∧ dependency.shape.Fits frame.index

variable {env middle after there : Environment π} {frames later : List Frame} {launch : Launch π}

theorem mem_namesOf {name : QualifiedName} {dependency : Dependency π}
    (h : env.dependencies.get? name = some dependency) : name ∈ env.namesOf dependency.shape :=
  List.mem_filter.mpr ⟨Table.mem_keys_of_get? h, decide_eq_true (shapeOf_of_get? h)⟩

theorem Distinct.filter (h : env.Distinct frames) (p : Frame → Bool) :
    env.Distinct (frames.filter p) where
  nodup := h.nodup.sublist (List.filter_sublist.map Frame.entry)
  registered := fun frame hframe => h.registered frame (List.mem_of_mem_filter hframe)

/-- Scalar dependencies have one slot each. -/
theorem Distinct.length_le_scalar (h : env.Distinct frames)
    (hscalar : ∀ frame ∈ frames, env.shapeOf frame.name = some .scalar) :
    frames.length ≤ (env.namesOf .scalar).length := by
  have hshape : ∀ frame ∈ frames, frame.name ∈ env.namesOf .scalar ∧ frame.index = none := by
    intro frame hframe
    obtain ⟨dependency, hname, -, hfits⟩ := h.registered frame hframe
    have heq : dependency.shape = .scalar :=
      Option.some.inj ((shapeOf_of_get? hname).symm.trans (hscalar frame hframe))
    rw [heq] at hfits
    exact ⟨heq ▸ mem_namesOf hname, hfits⟩
  have hentries :
      frames.map Frame.entry = (frames.map Frame.name).map fun name => (name, none) := by
    rw [List.map_map]
    exact List.map_congr_left fun frame hframe => Prod.ext rfl (hshape frame hframe).2
  have hnames : (frames.map Frame.name).Nodup := List.Nodup.of_map _ (hentries ▸ h.nodup)
  rw [← List.length_map Frame.name]
  refine (hnames.subperm fun name hname => ?_).length_le
  obtain ⟨frame, hframe, rfl⟩ := List.mem_map.mp hname
  exact (hshape frame hframe).1

/-- Itemwise dependencies have a slot for each index. -/
theorem Distinct.length_le_itemwise (h : env.Distinct frames)
    (hitemwise : ∀ frame ∈ frames, env.shapeOf frame.name = some .itemwise) :
    frames.length ≤ UInt64.size * (env.namesOf .itemwise).length := by
  rw [← List.length_map Frame.entry]
  refine Nesting.length_le env.shapeOf h.nodup fun entry hentry => ?_
  obtain ⟨frame, hframe, rfl⟩ := List.mem_map.mp hentry
  obtain ⟨dependency, hname, -, hfits⟩ := h.registered frame hframe
  have hshape := (shapeOf_of_get? hname).symm.trans (hitemwise frame hframe)
  refine ⟨Option.some.inj hshape ▸ mem_namesOf hname, dependency.shape, ?_, hfits⟩
  exact shapeOf_of_get? hname

theorem Distinct.length_le (h : env.Distinct frames) : frames.length ≤ env.slotCount := by
  let isScalar (frame : Frame) : Bool := env.shapeOf frame.name = some .scalar
  have hscalar : (frames.filter isScalar).length ≤ (env.namesOf .scalar).length :=
    (h.filter _).length_le_scalar fun frame hframe =>
      of_decide_eq_true (List.mem_filter.mp hframe).2
  have hitemwise : (frames.filter fun frame => !isScalar frame).length ≤
      UInt64.size * (env.namesOf .itemwise).length := by
    refine (h.filter _).length_le_itemwise fun frame hframe => ?_
    obtain ⟨hmem, hshape⟩ := List.mem_filter.mp hframe
    obtain ⟨dependency, hname, -, -⟩ := h.registered frame hmem
    rw [shapeOf_of_get? hname]
    cases heq : dependency.shape with
    | scalar => simp [isScalar, shapeOf_of_get? hname, heq] at hshape
    | itemwise => rfl
  have hsplit := List.length_eq_length_filter_add (l := frames) isScalar
  unfold slotCount
  omega

/-! ### Recomputes on top of others -/

/-- Whether an environment is one in which some recomputes are running on top of those of another
environment, each of a slot that was not being recomputed before. -/
structure Nests (env : Environment π) (frames : List Frame) (there : Environment π) : Prop
    extends env.Distinct frames where
  same : env.SameDependencies there
  stack : there.stack = frames ++ env.stack
  running : ∀ name slot, there.statusOf name slot = .evaluating ↔
    (name, slot) ∈ frames.map Frame.entry ∨ env.statusOf name slot = .evaluating
  fresh : ∀ frame ∈ frames, env.statusOf frame.name frame.index ≠ .evaluating

/-- Nothing runs on top where the same recomputes are running. -/
theorem nests_nil (hsame : env.SameDependencies there) (hstack : there.stack = env.stack)
    (hrunning : ∀ name slot,
      there.statusOf name slot = .evaluating ↔ env.statusOf name slot = .evaluating) :
    env.Nests [] there where
  nodup := List.nodup_nil
  registered := fun _ hframe => absurd hframe List.not_mem_nil
  same := hsame
  stack := hstack
  running := by
    intro name slot
    rw [hrunning]
    simp
  fresh := fun _ hframe => absurd hframe List.not_mem_nil

theorem Nests.trans (h : env.Nests frames middle) (h' : middle.Nests later after) :
    env.Nests (later ++ frames) after where
  nodup := by
    rw [List.map_append]
    refine h'.nodup.append h.nodup fun entry hlater hentry => ?_
    -- A slot of the inner recomputes was idle when those were already running that lie around.
    obtain ⟨frame, hframe, rfl⟩ := List.mem_map.mp hlater
    exact h'.fresh frame hframe ((h.running _ _).mpr (Or.inl hentry))
  registered := by
    intro frame hframe
    rcases List.mem_append.mp hframe with hlater | hframe
    · obtain ⟨dependency, hname, hserial, hfits⟩ := h'.registered frame hlater
      obtain ⟨before, hbefore, heq, hsame⟩ := h.same.symm.get?_eq_some hname
      exact ⟨before, hbefore, hsame.trans hserial, heq ▸ hfits⟩
    · exact h.registered frame hframe
  same := h.same.trans h'.same
  stack := by rw [h'.stack, h.stack, List.append_assoc]
  running := by
    intro name slot
    rw [h'.running, h.running, List.map_append, List.mem_append, or_assoc]
  fresh := by
    intro frame hframe
    rcases List.mem_append.mp hframe with hlater | hframe
    · exact fun hrunning => h'.fresh frame hlater ((h.running _ _).mpr (Or.inr hrunning))
    · exact h.fresh frame hframe

/-- A request other than a registration neither starts nor ends recomputes by itself. -/
theorem nests_effect (env : Environment π) {request : Request π}
    (h : request.registers = false) : env.Nests [] (request.effect env) := by
  cases request with
  | register name registration => cases h
  | assign name value =>
      exact nests_nil (sameDependencies_assign env name value)
        (env.stack_effect (.assign name value))
        fun key slot => evaluating_notify_iff (env.store name value) name key slot
  | notify name =>
      exact nests_nil (sameDependencies_notify env name) (env.stack_effect (.notify name))
        (evaluating_notify_iff env name)
  | _ => exact nests_nil ⟨rfl, fun _ => rfl⟩ rfl fun _ _ => Iff.rfl

theorem nests_start (h : launch.Enabled env) : env.Nests [launch.frame] (launch.start env) := by
  obtain ⟨index, hindex⟩ := h.index
  constructor
  case toDistinct =>
    refine ⟨List.nodup_singleton _, fun frame hframe => ?_⟩
    rw [List.mem_singleton.mp hframe]
    exact ⟨launch.dependency, h.registered, rfl, Shape.fits_of_slot? hindex⟩
  case same => exact sameDependencies_start h.registered launch.slot
  case stack => rfl
  case running =>
    intro name slot
    rw [Launch.start, evaluating_start_iff h.registered]
    simp [Frame.entry, Launch.frame]
  case fresh =>
    intro frame hframe
    rw [List.mem_singleton.mp hframe]
    change env.statusOf launch.name launch.slot ≠ .evaluating
    rw [statusOf_of_get? h.registered, h.empty]
    exact Status.noConfusion

/-- A recompute that has ended is on top of nothing any more. -/
theorem Nests.finish (h : (launch.start env).Nests frames middle) (hlaunch : launch.Enabled env)
    (hstack : middle.stack = launch.frame :: env.stack) (result : Except Error Value) :
    env.Nests [] (launch.finish middle result) := by
  have hnone : frames = [] := by
    have hboth : frames ++ (launch.start env).stack = (launch.start env).stack :=
      h.stack.symm.trans hstack
    simpa using hboth
  subst hnone
  have hsame := (sameDependencies_start hlaunch.registered launch.slot).trans h.same
  obtain ⟨later, hlater, -, hserial⟩ := hsame.get?_eq_some hlaunch.registered
  have hidle : env.statusOf launch.name launch.slot ≠ .evaluating := by
    rw [statusOf_of_get? hlaunch.registered, hlaunch.empty]
    exact Status.noConfusion
  rw [Launch.finish, ← hserial]
  refine nests_nil (hsame.trans (sameDependencies_finish hlater _ _ _)) ?_ fun name slot => ?_
  · rw [stack_finish, hstack, List.tail_cons]
  · rw [evaluating_finish_iff hlater, h.running, Launch.start,
      evaluating_start_iff hlaunch.registered]
    by_cases hslot : name = launch.name ∧ slot = launch.slot
    · obtain ⟨rfl, rfl⟩ := hslot
      simp [hidle]
    · simp [hslot]

theorem lasting_nests : Lasting (fun request : Request π => request.registers = false)
    fun env there => ∃ frames, env.Nests frames there where
  refl := fun env => ⟨[], nests_nil (.refl env) rfl fun _ _ => Iff.rfl⟩
  trans := by
    rintro env middle after ⟨frames, h⟩ ⟨later, h'⟩
    exact ⟨later ++ frames, h.trans h'⟩
  asked := fun hrequest _ => ⟨[], nests_effect _ hrequest⟩
  began := fun hlaunch => ⟨_, nests_start hlaunch⟩
  ended := by
    rintro env middle launch result hlaunch ⟨frames, h⟩ hstack
    exact ⟨[], h.finish hlaunch hstack result⟩

/-! ### Runs -/

/-- Whether procedures of an environment register nothing. -/
def Static (meaning : Meaning π) (env : Environment π) : Prop :=
  env.AllRegistered fun _ registration => ∀ slot,
    (meaning registration.procedure slot).Confined fun request => request.registers = false

variable {meaning : Meaning π} {d : Dialogue π α}

/-- Whatever a run comes by has recomputes of different slots on top of those that were running. -/
theorem Static.exists_nests (h : env.Static meaning)
    (hd : d.Confined fun request => request.registers = false) (depth : Nat)
    {events : List (Event π)} (hevents : events <+: history meaning depth d env) :
    ∃ frames, env.Nests frames (env.after events) := by
  refine lasts_history lasting_nests depth hd ?_ events hevents
  exact confines_history (fun _ ⟨_, hnests⟩ => hnests.same) h depth d

/-- A run has one result for all bounds on the depth that are no less than the number of slots. -/
theorem Static.exists_runWithin (h : env.Static meaning)
    (hd : d.Confined fun request => request.registers = false) :
    ∃ outcome, ∀ depth, env.slotCount ≤ depth → runWithin meaning depth d env = some outcome := by
  cases hrun : runWithin meaning env.slotCount d env with
  | some outcome => exact ⟨outcome, fun depth hdepth => runWithin_mono hdepth hrun⟩
  | none =>
      obtain ⟨frames, hnests⟩ := h.exists_nests hd env.slotCount (List.prefix_refl _)
      have hlength := hnests.length_le
      have hdeep := stack_history_of_none _ d env hrun
      rw [hnests.stack, List.length_append] at hdeep
      omega

theorem slotCount_le_depthLimit (env : Environment π) : env.slotCount ≤ env.depthLimit := by
  have hsplit := List.length_eq_length_filter_add (l := env.dependencies.keys)
    fun name => decide (env.shapeOf name = some .scalar)
  have hitemwise : (env.namesOf .itemwise).length ≤ (env.dependencies.keys.filter
      fun name => !decide (env.shapeOf name = some .scalar)).length := by
    refine (List.monotone_filter_right _ fun name hname => ?_).length_le
    simp [of_decide_eq_true hname]
  have hsize := env.dependencies.length_keys
  unfold slotCount depthLimit
  unfold namesOf at hitemwise ⊢
  rw [UInt64.size]
  omega

end Environment

/-! ### Compiled definitions -/

/-- Whether what is registered is a compiled body. -/
def Registration.IsCompiled (registration : Registration Procedure) : Prop :=
  ∃ resolution body, registration.procedure = .compiled resolution body

namespace Environment

theorem static_of_isCompiled {env : Environment Procedure}
    (h : env.AllRegistered fun _ registration => registration.IsCompiled) :
    env.Static Procedure.dialogue := by
  intro name dependency hname slot
  obtain ⟨resolution, body, hprocedure⟩ := h name dependency hname
  rw [hprocedure]
  refine (Expr.follows_dialogue resolution body slot).confined.imp fun request hrequest => ?_
  cases request with
  | register name registration => exact hrequest.elim
  | _ => rfl

/-- Every read of compiled definitions ends, whatever they read and assign and whatever state they
are in. Its result is that of every bound on the depth which is no less than the number of slots,
and so is that of the bound which runs have. At every moment on the way the recomputes that the read
is waiting for are of different slots of what was registered in the beginning, so no more of them
are running than there are slots. -/
theorem read_terminates {env : Environment Procedure}
    (h : env.AllRegistered fun _ registration => registration.IsCompiled) (name : QualifiedName)
    (index : Option Int64) :
    (∃ result after,
      env.run Procedure.dialogue (.request (.read name index)) = some (result, after) ∧
      ∀ depth, env.slotCount ≤ depth →
        runWithin Procedure.dialogue depth (.request (.read name index)) env =
          some (result, after)) ∧
    ∀ depth events, events <+: history Procedure.dialogue depth (.request (.read name index)) env →
      ∃ frames, env.Nests frames (env.after events) ∧ frames.length ≤ env.slotCount := by
  have hstatic := static_of_isCompiled h
  have hread : (Dialogue.request (.read name index) : Exchange (Except Error Value)).Confined
      fun request => request.registers = false := Dialogue.confined_request rfl
  constructor
  · obtain ⟨⟨result, after⟩, hrun⟩ := hstatic.exists_runWithin hread
    exact ⟨result, after, hrun _ env.slotCount_le_depthLimit, hrun⟩
  · intro depth events hevents
    obtain ⟨frames, hnests⟩ := hstatic.exists_nests hread depth hevents
    exact ⟨frames, hnests, hnests.length_le⟩

/-- Items that are each computed from the one before, without a first one, and assign on the way,
and two variables that read each other and the items. -/
def descending : Environment Procedure :=
  .ofDefinitions .standard .root (Table.ofList [(⟨⟨["s"]⟩, "last"⟩, .int 0)])
    ([.ofBody "v" (some "i")
        (.sequence [.assign "s.last" (.name "i"),
          .item (.name "v") (.binary .subtract (.name "i") (.constant (.int 1)))]) "",
      .ofBody "x" none (.binary .add (.name "y") (.name "s.last")) "",
      .ofBody "y" none (.binary .add (.name "x") (.item (.name "v") (.constant (.int 0)))) ""].map
        fun definition => (definition, .root))

theorem read_terminates_descending :
    descending.slotCount = UInt64.size + 2 ∧
    (∃ result after, descending.run Procedure.dialogue (.request (.read ⟨.root, "x"⟩ none)) =
      some (result, after)) ∧
    ∀ depth events, events <+: history Procedure.dialogue depth
        (.request (.read ⟨.root, "x"⟩ none)) descending →
      ∃ frames, descending.Nests frames (descending.after events) ∧
        frames.length ≤ UInt64.size + 2 := by
  have hcount : descending.slotCount = UInt64.size + 2 := by decide +kernel
  have hcompiled : descending.AllRegistered fun _ registration => registration.IsCompiled :=
    allRegistered_ofDefinitions _ _ _ fun _ _ _ _ => ⟨_, _, rfl⟩
  obtain ⟨⟨result, after, hrun, -⟩, hnests⟩ := read_terminates hcompiled ⟨.root, "x"⟩ none
  rw [hcount] at hnests
  exact ⟨hcount, ⟨result, after, hrun⟩, hnests⟩

end Environment
end Memograph
