import Mathlib.Data.List.Chain
import Memograph.Proofs.Failures
import Memograph.Proofs.Grounding
import Memograph.Proofs.Sessions

/-! Cycles, as they are reported and as they are there. Each recompute on the stack was asked for by
the one outside of it, so the names on the stack are a walk along what is read. Where a read finds
its own slot on the stack, the part of the walk since then is a closed one, and the report names
it. The other way round, a read that succeeds has read everything behind it, which takes no end on
a cycle. -/

open Relation

namespace Memograph

variable {π α : Type}

/-- Whether a procedure fails with no cycles but those that it hears of. -/
def Registration.Candid (meaning : Meaning π) (registration : Registration π) : Prop :=
  ∀ T : Error → Prop, (∀ cause : Error, cause.isCycle = false → T cause) →
    ∀ index, (meaning registration.procedure index).Yields T (Fails T)

namespace Environment

/-! ### Walks -/

/-- Whether a chain of registered names leads from a name along what each of them reads back to the
name. -/
structure ClosedWalk (env : Environment π) (name : QualifiedName) (chain : List QualifiedName) :
    Prop where
  proper : 2 ≤ chain.length
  first : chain.head? = some name
  last : chain.getLast? = some name
  registered : ∀ key ∈ chain, env.dependencies.contains key = true
  walk : chain.IsChain env.Reads

theorem ClosedWalk.transGen {env : Environment π} {name : QualifiedName}
    {chain : List QualifiedName} (h : env.ClosedWalk name chain) :
    TransGen env.Reads name name := by
  obtain ⟨hproper, hfirst, hlast, -, hwalk⟩ := h
  match chain with
  | [] => cases hfirst
  | [_] => simp at hproper
  | start :: second :: rest =>
      obtain rfl : start = name := Option.some.inj hfirst
      obtain ⟨hread, hrest⟩ := List.isChain_cons_cons.mp hwalk
      refine TransGen.head' hread ?_
      refine List.relationReflTransGen_of_exists_isChain_cons rest hrest ?_
      rw [List.getLast?_cons_cons, List.getLast?_eq_some_getLast (List.cons_ne_nil _ _)] at hlast
      exact Option.some.inj hlast

theorem ClosedWalk.of_same {env after : Environment π} (hsame : env.SameDependencies after)
    {name : QualifiedName} {chain : List QualifiedName} (h : env.ClosedWalk name chain) :
    after.ClosedWalk name chain := by
  refine ⟨h.proper, h.first, h.last, fun key hkey => ?_, ?_⟩
  · obtain ⟨dependency, hdependency⟩ := Option.isSome_iff_exists.mp (h.registered key hkey)
    obtain ⟨later, hlater, -, -⟩ := hsame.get?_eq_some hdependency
    exact Option.isSome_iff_exists.mpr ⟨later, hlater⟩
  · rw [hsame.reads]
    exact h.walk

/-- The chain of a slot has the names of its innermost recompute and of those inside of it. -/
theorem exists_chain {env : Environment π} {name : QualifiedName} {slot : Option Int64}
    (hmem : (name, slot) ∈ env.underway) :
    ∃ inner frame outer, env.stack = inner ++ frame :: outer ∧
      frame.name = name ∧ frame.index = slot ∧
      (∀ other ∈ inner, ¬(other.name = name ∧ other.index = slot)) ∧
      env.chain name slot = ((inner ++ [frame]).map Frame.name).reverse ++ [name] := by
  let inside : Frame → Bool := fun frame => !(frame.name == name && frame.index == slot)
  have hinside : ∀ frame, inside frame = true ↔ ¬(frame.name = name ∧ frame.index = slot) := by
    intro frame
    simp only [inside, Bool.not_eq_true', Bool.and_eq_false_iff, beq_eq_false_iff_ne, ne_eq]
    exact Decidable.not_and_iff_not_or_not.symm
  have hsplit := List.takeWhile_append_dropWhile (p := inside) (l := env.stack)
  cases houter : env.stack.dropWhile inside with
  | nil =>
      -- The slot itself is on the stack, so not all of the stack is inside of it.
      obtain ⟨frame, hframe, heq⟩ := List.mem_map.mp hmem
      have hall := List.dropWhile_eq_nil_iff.mp houter frame hframe
      exact absurd (Prod.mk.inj heq) ((hinside frame).mp hall)
  | cons frame outer =>
      have hfound : inside frame = false := by
        have hhead := List.head_dropWhile_not (p := inside) (l := env.stack) (by simp [houter])
        simpa only [houter, List.head_cons] using hhead
      rw [← Bool.not_eq_true, hinside, not_not] at hfound
      rw [houter] at hsplit
      have hlength : (env.stack.takeWhile inside).length < env.stack.length := by
        conv_rhs => rw [← hsplit]
        simp
      refine ⟨env.stack.takeWhile inside, frame, outer, hsplit.symm, hfound.1, hfound.2,
        fun other hother => (hinside other).mp (List.mem_takeWhile_imp hother), ?_⟩
      unfold chain
      dsimp only
      rw [if_pos hlength, List.map_append, List.reverse_append, List.map_singleton, hfound.1]
      rfl

/-- The chain of a slot that is being recomputed is a closed walk, if each name on the stack, and
the name of the slot before them, is read by the next one outside. -/
theorem closedWalk_chain {env : Environment π} (henv : env.Balanced) {name : QualifiedName}
    {slot : Option Int64} (hstatus : env.statusOf name slot = .evaluating)
    (hstack : (name :: env.stack.map Frame.name).IsChain fun read reader => env.Reads reader read) :
    env.ClosedWalk name (env.chain name slot) := by
  obtain ⟨frames, frame, rest, hsplit, hname, -, -, hchain⟩ :=
    exists_chain ((henv.running name slot).mp hstatus)
  have hnames : env.stack.map Frame.name =
      frames.map Frame.name ++ name :: rest.map Frame.name := by
    rw [hsplit, List.map_append, List.map_cons, hname]
  rw [List.map_append, List.reverse_append, List.map_singleton, hname, List.reverse_singleton,
    List.singleton_append] at hchain
  generalize frames.map Frame.name = inner at hnames hchain
  generalize rest.map Frame.name = outer at hnames
  have hregistered : ∀ key ∈ env.stack.map Frame.name, env.dependencies.contains key = true := by
    intro key hkey
    obtain ⟨frame, hframe, rfl⟩ := List.mem_map.mp hkey
    obtain ⟨dependency, hdependency, -⟩ := henv.fits _ (List.mem_map_of_mem hframe)
    rw [Table.contains, hdependency]
    rfl
  rw [hnames] at hstack hregistered
  rw [hchain]
  constructor
  case proper => simp
  case first => rfl
  case last => exact List.getLast?_concat
  case registered =>
    intro key hkey
    refine hregistered key ?_
    simp only [List.cons_append, List.mem_cons, List.mem_append, List.mem_reverse,
      List.not_mem_nil, or_false] at hkey ⊢
    tauto
  case walk =>
    -- The stack goes outwards, from what is read to its readers; a walk goes the other way.
    have hprefix : name :: inner ++ [name] <+: name :: (inner ++ name :: outer) :=
      ⟨outer, by simp⟩
    have hwalk := List.isChain_reverse.mpr <| hstack.prefix hprefix
    simpa using hwalk

/-! ### Reports -/

/-- Whether an error, if it is a cycle, is one of a name of some kind and comes with a closed walk
of an environment. -/
def Explained (base : Environment π) (W : QualifiedName → Prop) (cause : Error) : Prop :=
  ∀ name chain, cause = .circularDependency name chain → W name ∧ base.ClosedWalk name chain

theorem explained_of_not_isCycle (base : Environment π) (W : QualifiedName → Prop) :
    ∀ cause : Error, cause.isCycle = false → base.Explained W cause := by
  rintro cause hcause name chain rfl
  cases hcause

theorem fails_readStored {T : Error → Prop}
    (hT : ∀ cause : Error, cause.isCycle = false → T cause) (env : Environment π)
    (name : QualifiedName) (index : Option Int64) : Fails T (env.readStored name index) := by
  unfold readStored
  split
  · exact .error (hT _ rfl)
  · exact .ok _
  · exact Value.fails_select hT _ _

theorem fails_part {T : Error → Prop} (hT : ∀ cause : Error, cause.isCycle = false → T cause)
    (shape : Shape) (index : Option Int64) (value : Value) : Fails T (shape.part index value) := by
  unfold Shape.part
  split
  · exact Value.fails_select hT _ _
  · exact .ok _

/-- Whether an environment has the dependencies of another one, whose procedures are candid, and
its stack says what is being recomputed. -/
structure Poised (meaning : Meaning π) (base env : Environment π) : Prop where
  same : base.SameDependencies env
  regular : env.Regular meaning
  candid : env.AllRegistered fun _ registration => registration.Candid meaning
  balanced : env.Balanced

/-- Whether a name may be read: it is of some kind, and the names on the stack, with the name before
them, are each read by the next one outside. -/
structure Licensed (base : Environment π) (W : QualifiedName → Prop) (env : Environment π)
    (name : QualifiedName) : Prop where
  kind : W name
  stack : (name :: env.stack.map Frame.name).IsChain fun read reader => base.Reads reader read

variable {meaning : Meaning π} {base env after : Environment π} {W : QualifiedName → Prop}

theorem Poised.evolves (h : Poised meaning base env) (hstep : env.Evolves after) :
    Poised meaning base after :=
  ⟨h.same.trans hstep.same, hstep.same.regular h.regular, hstep.same.allRegistered h.candid,
    hstep.balanced h.balanced⟩

theorem Poised.start (h : Poised meaning base env) {name : QualifiedName}
    {dependency : Dependency π} {slot : Option Int64}
    (hname : env.dependencies.get? name = some dependency) (hfits : dependency.shape.Fits slot)
    (hstatus : dependency.status slot = .uninitialized) :
    Poised meaning base (env.start name dependency slot) := by
  have hstart := sameDependencies_start hname slot
  exact ⟨h.same.trans hstart, hstart.regular h.regular, hstart.allRegistered h.candid,
    h.balanced.start hname hfits hstatus⟩

theorem Licensed.evolves {name : QualifiedName} (h : Licensed base W env name)
    (hstep : env.Evolves after) : Licensed base W after name := by
  refine ⟨h.kind, ?_⟩
  rw [hstep.stack]
  exact h.stack

/-- What a licensed dependency reads is licensed while the dependency is being recomputed. -/
theorem Licensed.start (hW : ∀ reader read, W reader → base.Reads reader read → W read)
    (hsame : base.SameDependencies env) {name read : QualifiedName}
    (h : Licensed base W env name) {dependency : Dependency π}
    (hname : env.dependencies.get? name = some dependency) (hread : read ∈ dependency.reads)
    (slot : Option Int64) : Licensed base W (env.start name dependency slot) read := by
  have hreads : base.Reads name read := by
    rw [← hsame.reads]
    exact ⟨dependency, hname, hread⟩
  exact ⟨hW name read h.kind hreads, List.isChain_cons_cons.mpr ⟨hreads, h.stack⟩⟩

theorem explained_converse {depth : Nat}
    (hread : ∀ {env after : Environment π} {name : QualifiedName} {index : Option Int64}
      {result : Except Error Value}, Poised meaning base env → Licensed base W env name →
      env.read (nested meaning depth) meaning name index = some (result, after) →
        Fails (base.Explained W) result)
    {footprint : Footprint} {post : List QualifiedName → α → Prop} {asked : List QualifiedName}
    {d : Dialogue π (Except Error α)} (hd : d.Follows footprint post asked)
    (hyields : d.Yields (base.Explained W) (Fails (base.Explained W)))
    {result : Except Error α} (henv : Poised meaning base env) (howns : env.Owns footprint.stores)
    (hlicensed : ∀ name ∈ footprint.reads, Licensed base W env name)
    (hrun : converse (respond (nested meaning depth) meaning) d env = some (result, after)) :
    Fails (base.Explained W) result := by
  induction hd generalizing env with
  | failed cause =>
      cases hrun
      exact hyields
  | done hpost =>
      cases hrun
      exact hyields
  | @read asked name index next hname hfailed hnext ih =>
      obtain ⟨answer, middle, hreply, hlater⟩ := converse_ask_eq_some hrun
      have hstep : env.Evolves middle := (steady_evolves meaning).read henv.regular hreply
      have hanswer := hread henv (hlicensed name hname) hreply
      cases answer with
      | error cause =>
          rw [hfailed] at hlater
          cases hlater
          exact .error (hanswer cause rfl)
      | ok value =>
          exact ih value (hyields.2 (.ok value) nofun) (henv.evolves hstep) (hstep.same.owns howns)
            (fun name hname => (hlicensed name hname).evolves hstep) hlater
  | @assign asked name value rest hname hrest ih =>
      have hstep := evolves_assign henv.regular.indexed name value
      exact ih (hyields.2 (env.assign name value).1 nofun) (henv.evolves hstep)
        (hstep.same.owns howns) (fun name hname => (hlicensed name hname).evolves hstep) hrun
  | @store asked name value rest hname hrest ih =>
      obtain ⟨dependency, hdependency⟩ := howns name hname
      have hstep := evolves_store hdependency value
      exact ih (hyields.2 () nofun) (henv.evolves hstep) (hstep.same.owns howns)
        (fun name hname => (hlicensed name hname).evolves hstep) hrun

theorem explained_read_of_nested {depth : Nat}
    (hnested : ∀ {env middle : Environment π} {name : QualifiedName} {dependency : Dependency π}
      {slot : Option Int64} {whole : Except Error Value}, Poised meaning base env →
      Licensed base W env name → env.dependencies.get? name = some dependency →
      dependency.shape.Fits slot → dependency.status slot = .uninitialized →
      nested meaning depth (meaning dependency.procedure slot) (env.start name dependency slot) =
        some (whole, middle) →
          Fails (base.Explained W) whole)
    {name : QualifiedName} {index : Option Int64} {result : Except Error Value}
    (henv : Poised meaning base env) (hlicensed : Licensed base W env name)
    (hread : env.read (nested meaning depth) meaning name index = some (result, after)) :
    Fails (base.Explained W) result := by
  have hT := explained_of_not_isCycle base W
  rcases read_eq_some hread with ⟨-, rfl, -⟩ | ⟨dependency, hname, hcomputed⟩
  · exact fails_readStored hT env name index
  · rcases hcomputed with ⟨-, rfl, -⟩ | ⟨slot, whole, hslot, hcompute, rfl⟩
    · exact .error (hT _ rfl)
    · refine Fails.bind ?_ (fails_part hT dependency.shape index)
      rcases compute_eq_some hcompute with
        ⟨value, -, rfl, -⟩ | ⟨hstatus, rfl, -⟩ | ⟨hstatus, middle, hrun, -⟩
      · exact .ok value
      · -- Only here does a cycle arise, with the stack as it is.
        refine .error fun other chain hcause => ?_
        cases hcause
        rw [← statusOf_of_get? hname] at hstatus
        have hstack := hlicensed.stack
        rw [← henv.same.reads] at hstack
        have hwalk := closedWalk_chain henv.balanced hstatus hstack
        exact ⟨hlicensed.kind, hwalk.of_same henv.same.symm⟩
      · exact hnested henv hlicensed hname (Shape.fits_of_slot? hslot) hstatus hrun

/-- A recompute fails with no cycles but closed walks, of names of a kind that passes on to what is
read. -/
theorem explained_nested (hW : ∀ reader read, W reader → base.Reads reader read → W read)
    (depth : Nat) {env middle : Environment π} {name : QualifiedName} {dependency : Dependency π}
    {slot : Option Int64} {whole : Except Error Value} (henv : Poised meaning base env)
    (hlicensed : Licensed base W env name) (hname : env.dependencies.get? name = some dependency)
    (hfits : dependency.shape.Fits slot) (hstatus : dependency.status slot = .uninitialized)
    (hrun : nested meaning depth (meaning dependency.procedure slot)
      (env.start name dependency slot) = some (whole, middle)) :
    Fails (base.Explained W) whole := by
  induction depth generalizing env middle name dependency slot whole with
  | zero => cases hrun
  | succ depth ih =>
      have hstart := sameDependencies_start hname slot
      obtain ⟨footprint, hreads, hstores, hfollows⟩ :=
        henv.regular.disciplined name dependency hname
      rw [nested, runWithin_eq_converse] at hrun
      exact explained_converse (explained_read_of_nested ih) (hfollows slot)
        (henv.candid name dependency hname _ (explained_of_not_isCycle base W) slot)
        (henv.start hname hfits hstatus) (hstart.owns (owns_of_subset hname hstores))
        (fun read hread => hlicensed.start hW henv.same hname (hreads hread) slot) hrun

/-- A read fails with no cycles but closed walks. -/
theorem explained_read (hW : ∀ reader read, W reader → base.Reads reader read → W read)
    {depth : Nat} {name : QualifiedName} {index : Option Int64} {result : Except Error Value}
    (henv : Poised meaning base env) (hlicensed : Licensed base W env name)
    (hread : env.read (nested meaning depth) meaning name index = some (result, after)) :
    Fails (base.Explained W) result :=
  explained_read_of_nested (explained_nested hW depth) henv hlicensed hread

/-! ### Dialogues at top level -/

/-- Whether an environment is as sessions of compiled definitions leave it between two steps. -/
structure Candid (env : Environment Procedure) : Prop extends env.Orderly where
  procedures : env.AllRegistered fun _ registration => registration.Candid Procedure.dialogue

section Candid

variable {base env : Environment Procedure} {W : QualifiedName → Prop}

theorem Candid.poised (h : env.Candid) : Poised Procedure.dialogue env env :=
  ⟨.refl env, h.regular, h.procedures, h.idle.balanced⟩

theorem Candid.licensed (h : env.Candid) {name : QualifiedName} (hname : W name) :
    Licensed env W env name := by
  refine ⟨hname, ?_⟩
  rw [h.idle.stack]
  exact List.isChain_singleton name

theorem Candid.evolves {after : Environment Procedure} (h : env.Candid)
    (hstep : env.Evolves after) : after.Candid :=
  ⟨hstep.orderly h.toOrderly, hstep.same.allRegistered h.procedures⟩

theorem Candid.frame {after : Environment Procedure} (h : env.Candid)
    (hdependencies : after.dependencies = env.dependencies) (hreaders : after.readers = env.readers)
    (hstack : after.stack = env.stack) : after.Candid := by
  have hsame : env.SameDependencies after := ⟨hreaders, fun name => by rw [hdependencies]⟩
  refine ⟨⟨hsame.regular h.regular, hstack.trans h.idle.stack, fun name slot => ?_⟩,
    hsame.allRegistered h.procedures⟩
  have hstatus : after.statusOf name = env.statusOf name := statusOf_congr (by rw [hdependencies])
  rw [hstatus]
  exact h.idle.slots name slot

/-- Between two steps there is room for as many recomputes as there are slots. -/
theorem Candid.roomy (h : env.Candid) (hsame : base.SameDependencies env) {depth : Nat}
    (hdepth : base.depthLimit ≤ depth) : env.Roomy base.dependencies.keys depth := by
  refine ⟨h.idle.balanced, fun name dependency hname => ?_, ?_⟩
  · obtain ⟨first, hfirst, -, -⟩ := hsame.symm.get?_eq_some hname
    exact Table.mem_keys_of_get? hfirst
  · have hsize := base.dependencies.length_keys
    rw [depthLimit, UInt64.size] at hdepth
    omega

/-- A read between two steps has a result, and fails with no cycles but closed walks of names that
lie behind it. -/
theorem Candid.exists_read (h : env.Candid) {names : List QualifiedName} {depth : Nat}
    (hroomy : env.Roomy names depth) (name : QualifiedName) (index : Option Int64) :
    ∃ result after, env.read (nested Procedure.dialogue depth) Procedure.dialogue name index =
        some (result, after) ∧ env.Evolves after ∧
      Fails (env.Explained (ReflTransGen env.Reads name)) result := by
  obtain ⟨⟨result, after⟩, hread⟩ := hroomy.exists_read name index h.regular
  exact ⟨result, after, hread, (steady_evolves _).read h.regular hread,
    explained_read (fun _ _ hreader => hreader.tail) h.poised (h.licensed .refl) hread⟩

theorem Candid.exists_respond (h : env.Candid) {request : Request Procedure}
    (hrequest : request.registers = false) {names : List QualifiedName} {depth : Nat}
    (hroomy : env.Roomy names depth) :
    ∃ reply after, respond (nested Procedure.dialogue depth) Procedure.dialogue request env =
        some (reply, after) ∧ env.SameDependencies after ∧ after.Candid ∧
      ∀ cause, request.failure? reply = some cause → env.Explained (fun _ => True) cause := by
  have hread : ∀ name index, ∃ result after,
      env.read (nested Procedure.dialogue depth) Procedure.dialogue name index =
        some (result, after) ∧ env.SameDependencies after ∧ after.Candid ∧
      ∀ cause, errorOf result = some cause → env.Explained (fun _ => True) cause := by
    intro name index
    obtain ⟨result, after, hread, hstep, hfails⟩ := h.exists_read hroomy name index
    refine ⟨result, after, hread, hstep.same, h.evolves hstep,
      fun cause hcause other chain heq => ?_⟩
    exact ⟨trivial, (hfails cause (eq_error_of_errorOf hcause) other chain heq).2⟩
  cases request with
  | read name index => exact hread name index
  | evaluate name index =>
      cases hname : env.dependencies.get? name with
      | none =>
          refine ⟨.error (.unknownDependency name), env, ?_, .refl env, h, fun cause hcause => ?_⟩
          · rw [respond, evaluate, hname]
          · cases hcause
            exact explained_of_not_isCycle env _ _ rfl
      | some dependency =>
          obtain ⟨result, after, hrun, hafter⟩ := hread name index
          exact ⟨result, after, (evaluate_eq_read hname _ index).trans hrun, hafter⟩
  | register name registration => cases hrequest
  | assign name value =>
      have hstep := evolves_assign h.regular.indexed name value
      exact ⟨_, _, rfl, hstep.same, h.evolves hstep, fun _ hcause => by cases hcause⟩
  | notify name =>
      have hstep := evolves_notify h.regular.indexed name
      exact ⟨_, _, rfl, hstep.same, h.evolves hstep, fun _ hcause => by cases hcause⟩
  | store name value =>
      exact ⟨_, _, rfl, env.sameDependencies_store name value, h.frame rfl rfl rfl,
        fun _ hcause => by cases hcause⟩
  | enter context =>
      exact ⟨_, _, rfl, ⟨rfl, fun _ => rfl⟩, h.frame rfl rfl rfl, fun _ hcause => by cases hcause⟩
  | inspect => exact ⟨_, _, rfl, .refl env, h, fun _ hcause => by cases hcause⟩
  | note answer =>
      exact ⟨_, _, rfl, ⟨rfl, fun _ => rfl⟩, h.frame rfl rfl rfl, fun _ hcause => by cases hcause⟩

/-- A dialogue that registers nothing has a result between two steps, and hears of no cycles but
closed walks. -/
theorem Candid.exists_converse (h : env.Candid) {d : Exchange α} {Q : α → Prop} {depth : Nat}
    (hd : d.Yields (base.Explained fun _ => True) Q) (hsame : base.SameDependencies env)
    (hdepth : base.depthLimit ≤ depth) :
    ∃ result after, converse (respond (nested Procedure.dialogue depth) Procedure.dialogue) d env =
      some (result, after) ∧ after.Candid ∧ base.SameDependencies after ∧ Q result := by
  induction d generalizing env with
  | done result => exact ⟨result, env, rfl, h, hsame, hd⟩
  | ask request next ih =>
      obtain ⟨reply, middle, hrespond, hstep, hmiddle, hreply⟩ :=
        h.exists_respond hd.1 (h.roomy hsame hdepth)
      have hheard : ∀ cause, request.failure? reply = some cause →
          base.Explained (fun _ => True) cause := fun cause hcause name chain heq =>
        ⟨trivial, (hreply cause hcause name chain heq).2.of_same hsame.symm⟩
      obtain ⟨result, after, hrun, hafter⟩ :=
        ih reply hmiddle (hd.2 reply hheard) (hsame.trans hstep)
      refine ⟨result, after, ?_, hafter⟩
      rw [converse, hrespond]
      exact hrun

theorem Candid.exists_run (h : env.Candid) {d : Exchange α} {Q : α → Prop}
    (hd : d.Yields (env.Explained fun _ => True) Q) :
    ∃ result after, env.run Procedure.dialogue d = some (result, after) ∧ after.Candid ∧
      env.SameDependencies after ∧ Q result := by
  rw [run, runWithin_eq_converse]
  exact h.exists_converse hd (.refl env) (Nat.le_refl _)

end Candid

/-! ### Definitions -/

/-- Compiles a definition in a context and registers it, if that is possible. -/
def define (env : Environment Procedure) (definition : Definition) (context : ContextPath) :
    Environment Procedure :=
  match definition.compile context with
  | .error _ => env
  | .ok compiled => (env.register compiled.name compiled.registration).2

theorem Candid.define {env : Environment Procedure} (h : env.Candid) {definition : Definition}
    (husage : definition.usage = Usage.ofExpr definition.body) (context : ContextPath) :
    (env.define definition context).Candid := by
  unfold Environment.define
  cases hcompile : definition.compile context with
  | error cause => exact h
  | ok compiled =>
      refine ⟨h.register (Definition.compile_disciplined husage hcompile),
        allRegistered_register h.procedures fun T hT index => ?_⟩
      exact Expr.yields_dialogue hT compiled.resolution compiled.body index

theorem AllRegistered.define {P : QualifiedName → Registration Procedure → Prop}
    {env : Environment Procedure} (h : env.AllRegistered P) {definition : Definition}
    {context : ContextPath}
    (hP : ∀ compiled, definition.compile context = .ok compiled →
      P compiled.name compiled.registration) :
    (env.define definition context).AllRegistered P := by
  unfold Environment.define
  cases hcompile : definition.compile context with
  | error cause => exact h
  | ok compiled => exact allRegistered_register h (hP compiled hcompile)

theorem candid_initial (config : Config) (context : ContextPath) :
    (initial config context : Environment Procedure).Candid :=
  ⟨orderly_initial config context, fun _ _ hname => by cases hname⟩

end Environment

/-! ### Sessions -/

namespace Session

open Environment

/-- A definition is answered with no cycle. -/
theorem exists_take_define (env : Environment Procedure) (definition : Definition)
    (context : Option ContextPath) :
    ∃ report, take (.define definition context) env = some (report,
        { env with journal := [] }.define definition (context.getD env.context)) ∧
      report.answer.Blames fun cause => cause.isCycle = false := by
  have hrun := Step.run_define Procedure.dialogue { env with journal := [] } definition context
  dsimp only at hrun
  unfold Environment.define
  cases hcompile : definition.compile (context.getD env.context) with
  | error cause =>
      rw [hcompile] at hrun
      exact ⟨_, take_of_run hrun, Answer.blames_failed
        (definition.fails_compile (fun _ h => h) _ cause hcompile)⟩
  | ok compiled =>
      rw [hcompile] at hrun
      dsimp only at hrun ⊢
      cases hregister : { env with journal := [] }.register compiled.name compiled.registration with
      | mk result after =>
          rw [hregister] at hrun
          cases result with
          | ok _ => exact ⟨_, take_of_run hrun, fun _ hcause => by cases hcause⟩
          | error cause =>
              refine ⟨_, take_of_run hrun, Answer.blames_failed ?_⟩
              rcases register_cases { env with journal := [] } compiled.name
                compiled.registration with
                ⟨-, heq⟩ | ⟨old, -, -, heq⟩ | ⟨old, -, -, heq⟩
              · rw [heq] at hregister
                cases hregister
              · rw [heq] at hregister
                cases hregister
                rfl
              · rw [heq] at hregister
                cases hregister

/-- A step has a report. It answers with no cycles but closed walks, and registers nothing but what
it defines. -/
theorem exists_take {env : Environment Procedure} (henv : env.Candid) {step : Step}
    (hstep : step.compiledOnly = true) :
    ∃ report after, take step env = some (report, after) ∧ after.Candid ∧
      report.answer.Blames (env.Explained fun _ => True) ∧
      ∀ P, env.AllRegistered P →
        (∀ definition context place compiled, step = .define definition context →
          definition.compile place = .ok compiled → P compiled.name compiled.registration) →
        after.AllRegistered P := by
  have hT := explained_of_not_isCycle env fun _ => True
  have hclear : { env with journal := [] }.Candid := henv.frame rfl rfl rfl
  by_cases hdefine : ∃ definition context, step = .define definition context
  · obtain ⟨definition, context, rfl⟩ := hdefine
    obtain ⟨report, htake, hanswer⟩ := exists_take_define env definition context
    refine ⟨report, _, htake, hclear.define (beq_iff_eq.mp hstep) _,
      fun cause hcause => hT cause (hanswer cause hcause), fun P hregistered hP => ?_⟩
    have hcleared : { env with journal := [] }.AllRegistered P := hregistered
    exact hcleared.define fun compiled => hP definition context _ compiled rfl
  · have hyields := Step.yields_dialogue
      (explained_of_not_isCycle { env with journal := [] } fun _ => True) hstep
      (fun definition context heq => hdefine ⟨definition, context, heq⟩) 0
    obtain ⟨answer, after, hrun, hafter, hsame, hanswer⟩ := hclear.exists_run hyields
    refine ⟨_, after, take_of_run hrun, hafter, fun cause hcause name chain heq => ?_,
      fun P hregistered _ => hsame.allRegistered hregistered⟩
    have hback : { env with journal := [] }.SameDependencies env := ⟨rfl, fun _ => rfl⟩
    exact ⟨trivial, (hanswer cause hcause name chain heq).2.of_same hback⟩

/-- Steps have reports, and keep what holds of all registrations if it holds of their
definitions. -/
theorem exists_takeAll {env : Environment Procedure} (henv : env.Candid) {steps : List Step}
    (hsteps : ∀ step ∈ steps, step.compiledOnly = true) :
    ∃ reports after, takeAll steps env = some (reports, after) ∧ after.Candid ∧
      ∀ P, env.AllRegistered P →
        (∀ definition context place compiled, .define definition context ∈ steps →
          definition.compile place = .ok compiled → P compiled.name compiled.registration) →
        after.AllRegistered P := by
  induction steps generalizing env with
  | nil => exact ⟨[], env, rfl, henv, fun _ hregistered _ => hregistered⟩
  | cons step steps ih =>
      obtain ⟨hstep, hrest⟩ := List.forall_mem_cons.mp hsteps
      obtain ⟨report, middle, htake, hmiddle, -, hfirst⟩ := exists_take henv hstep
      obtain ⟨reports, after, hall, hafter, hlast⟩ := ih hmiddle hrest
      refine ⟨report :: reports, after, takeAll_cons htake hall, hafter,
        fun P hregistered hP => hlast P (hfirst P hregistered ?_) ?_⟩
      · rintro definition context place compiled rfl
        exact hP definition context place compiled List.mem_cons_self
      · exact fun definition context place compiled hmem =>
          hP definition context place compiled (List.mem_cons_of_mem _ hmem)

end Session

/-! ### Definitions of their own -/

namespace Environment

/-- Whether a cycle can be reached from a name along what is read. -/
def LeadsToCycle (env : Environment π) (name : QualifiedName) : Prop :=
  ∃ source, ReflTransGen env.Reads name source ∧ TransGen env.Reads source source

/-- Definitions, each in a context, over stored values. -/
def ofDefinitions (config : Config) (context : ContextPath) (stored : Table QualifiedName Value)
    (definitions : List (Definition × ContextPath)) : Environment Procedure :=
  definitions.foldl (fun env entry => env.define entry.1 entry.2)
    { initial config context with stored }

theorem valid_of_define {env : Environment Procedure} {definition : Definition}
    {context : ContextPath} {name : QualifiedName} {slot : Option Int64} {value : Value}
    (h : (env.define definition context).statusOf name slot = .valid value) :
    env.statusOf name slot = .valid value := by
  unfold define at h
  cases hcompile : definition.compile context with
  | error cause =>
      rw [hcompile] at h
      exact h
  | ok compiled =>
      rw [hcompile] at h
      dsimp only at h
      rcases register_cases env compiled.name compiled.registration with
        ⟨-, hregister⟩ | ⟨old, -, -, hregister⟩ | ⟨old, -, -, hregister⟩
      · rw [hregister] at h
        exact ((installs_enroll env _ _).of_statusOf_eq_valid h).2
      · rw [hregister] at h
        exact h
      · rw [hregister] at h
        exact ((installs_supersede env _ old _).of_statusOf_eq_valid (valid_of_notify _ h).2).2

/-- Nothing has a value yet where there are only definitions. -/
theorem ofDefinitions_candid (config : Config) (context : ContextPath)
    (stored : Table QualifiedName Value) {definitions : List (Definition × ContextPath)}
    (husage : ∀ entry ∈ definitions, entry.1.usage = Usage.ofExpr entry.1.body) :
    (ofDefinitions config context stored definitions).Candid ∧
      ∀ name slot value,
        (ofDefinitions config context stored definitions).statusOf name slot ≠ .valid value := by
  have hfold : ∀ env : Environment Procedure, env.Candid →
      (∀ name slot value, env.statusOf name slot ≠ .valid value) →
      (definitions.foldl (fun env entry => env.define entry.1 entry.2) env).Candid ∧
        ∀ name slot value, (definitions.foldl (fun env entry => env.define entry.1 entry.2)
          env).statusOf name slot ≠ .valid value := by
    induction definitions with
    | nil => exact fun env henv hempty => ⟨henv, hempty⟩
    | cons entry definitions ih =>
        obtain ⟨hentry, hrest⟩ := List.forall_mem_cons.mp husage
        intro env henv hempty
        exact ih hrest _ (henv.define hentry entry.2) fun name slot value hvalid =>
          hempty name slot value (valid_of_define hvalid)
  exact hfold _ ((candid_initial config context).frame rfl rfl rfl) nofun

theorem allRegistered_ofDefinitions {P : QualifiedName → Registration Procedure → Prop}
    (config : Config) (context : ContextPath) (stored : Table QualifiedName Value)
    {definitions : List (Definition × ContextPath)}
    (h : ∀ entry ∈ definitions, ∀ compiled, entry.1.compile entry.2 = .ok compiled →
      P compiled.name compiled.registration) :
    (ofDefinitions config context stored definitions).AllRegistered P := by
  have hfold : ∀ env : Environment Procedure, env.AllRegistered P →
      (definitions.foldl (fun env entry => env.define entry.1 entry.2) env).AllRegistered P := by
    induction definitions with
    | nil => exact fun env henv => henv
    | cons entry definitions ih =>
        obtain ⟨hentry, hrest⟩ := List.forall_mem_cons.mp h
        exact fun env henv => ih hrest _ (henv.define hentry)
  exact hfold _ fun _ _ hname => by cases hname

/-- A read of a name succeeds only if no cycle can be reached from it, and reports a cycle only if
one can be. -/
theorem Candid.read_cycles {env : Environment Procedure} (h : env.Candid)
    (hempty : ∀ name slot value, env.statusOf name slot ≠ .valid value) (name : QualifiedName)
    (index : Option Int64) :
    ∃ result after, env.run Procedure.dialogue (.request (.read name index)) =
        some (result, after) ∧
      (env.LeadsToCycle name → ∀ value, result ≠ .ok value) ∧
      (¬env.LeadsToCycle name → ∀ key chain, result ≠ .error (.circularDependency key chain)) := by
  obtain ⟨result, after, hread, hstep, hfails⟩ :=
    h.exists_read (h.roomy (.refl env) (Nat.le_refl _)) name index
  refine ⟨result, after, run_read hread, ?_, ?_⟩
  · rintro ⟨source, hpath, hcycle⟩ value hvalue
    have hvalues : env.ValuesHave Founded := fun key slot value hvalid =>
      absurd hvalid (hempty key slot value)
    have hfounded := (inherited_read inherited_founded _ h.regular hvalues hread).2 value hvalue
    rw [← hstep.same.reads] at hpath hcycle
    exact hfounded.not_cycle hpath hcycle
  · rintro hnone key chain rfl
    obtain ⟨hpath, hwalk⟩ := hfails _ rfl key chain rfl
    exact hnone ⟨key, hpath, hwalk.transGen⟩

end Environment

namespace Session

open Environment

/-- Cycles are reported where they are, and nowhere else. In a session of compiled definitions each
cycle that a step answers with is a closed walk along what is read. Where definitions were never
read before, a read of a name succeeds only if no cycle can be reached from it, and answers with a
cycle only if one can be. -/
theorem reported_cycles_exact :
    (∀ (session : Session) (before : List Step) (step : Step) (rest : List Step),
      session.steps = before ++ step :: rest →
      (∀ step ∈ session.steps, step.compiledOnly = true) →
      ∃ reports env report after,
        takeAll before (.initial session.config session.context) = some (reports, env) ∧
        take step env = some (report, after) ∧
        ∀ name chain, report.answer.Reports (.circularDependency name chain) →
          env.ClosedWalk name chain) ∧
    ∀ (config : Config) (context : ContextPath) (stored : Table QualifiedName Value)
      (definitions : List (Definition × ContextPath)),
      (∀ entry ∈ definitions, entry.1.usage = Usage.ofExpr entry.1.body) →
      ∀ name index, ∃ result after,
        (ofDefinitions config context stored definitions).run Procedure.dialogue
          (.request (.read name index)) = some (result, after) ∧
        ((ofDefinitions config context stored definitions).LeadsToCycle name →
          ∀ value, result ≠ .ok value) ∧
        (¬(ofDefinitions config context stored definitions).LeadsToCycle name →
          ∀ key chain, result ≠ .error (.circularDependency key chain)) := by
  constructor
  · intro session before step rest hsteps hcompiled
    rw [hsteps] at hcompiled
    obtain ⟨hbefore, hlater⟩ := List.forall_mem_append.mp hcompiled
    obtain ⟨reports, env, hall, henv, -⟩ :=
      exists_takeAll (candid_initial session.config session.context) hbefore
    obtain ⟨report, after, htake, -, hanswer, -⟩ :=
      exists_take henv (hlater step List.mem_cons_self)
    exact ⟨reports, env, report, after, hall, htake, fun name chain hreports =>
      (hanswer _ hreports name chain rfl).2⟩
  · intro config context stored definitions husage name index
    obtain ⟨hcandid, hempty⟩ := ofDefinitions_candid config context stored husage
    exact hcandid.read_cycles hempty name index

/-- A variable over another one that is computed from an item of a third, whose items are computed
from the second. -/
def twisted : List Definition :=
  [.ofBody "v" (some "i") (.binary .multiply (.name "w") (.name "i")) "",
    .ofBody "w" none (.binary .add (.item (.name "v") (.constant (.int 3))) (.name "y")) "",
    .ofBody "x" none (.binary .add (.name "w") (.name "y")) ""]

/-- The cycle is reported from within, and it is there before anything was read. -/
theorem reported_cycles_exact_twisted :
    (∃ reports env report after,
      takeAll (.assign (.written "y") (.int 2) :: twisted.map fun definition =>
        .define definition none) (.initial .standard .root) = some (reports, env) ∧
      take (.read (.written "x") none) env = some (report, after) ∧
      report.answer.Reports
        (.circularDependency ⟨.root, "w"⟩ [⟨.root, "w"⟩, ⟨.root, "v"⟩, ⟨.root, "w"⟩]) ∧
      env.ClosedWalk ⟨.root, "w"⟩ [⟨.root, "w"⟩, ⟨.root, "v"⟩, ⟨.root, "w"⟩]) ∧
    ∃ result after,
      (ofDefinitions .standard .root (Table.ofList [(⟨.root, "y"⟩, .int 2)])
        (twisted.map fun definition => (definition, .root))).run Procedure.dialogue
          (.request (.read ⟨.root, "x"⟩ none)) = some (result, after) ∧
      ∀ value, result ≠ .ok value := by
  constructor
  · let steps : List Step := .assign (.written "y") (.int 2) :: twisted.map fun definition =>
      .define definition none
    have hcompiled : ∀ step ∈ steps ++ [.read (.written "x") none], step.compiledOnly = true := by
      rw [← List.all_eq_true]
      decide +kernel
    obtain ⟨reports, env, report, after, hall, htake, hwalk⟩ := reported_cycles_exact.1
      ⟨.standard, .root, steps ++ [.read (.written "x") none]⟩ steps (.read (.written "x") none) []
      rfl hcompiled
    have hcomputed : (takeAll steps (.initial .standard .root)).bind (fun outcome =>
        (take (.read (.written "x") none) outcome.2).bind fun outcome =>
          outcome.1.answer.failure?) =
        some (.circularDependency ⟨.root, "w"⟩ [⟨.root, "w"⟩, ⟨.root, "v"⟩, ⟨.root, "w"⟩]) := by
      decide +kernel
    dsimp only at hall
    rw [hall, Option.bind_some, htake, Option.bind_some] at hcomputed
    have hreports := Answer.reports_of_failure? hcomputed
    exact ⟨reports, env, report, after, hall, htake, hreports, hwalk _ _ hreports⟩
  · obtain ⟨result, after, hrun, hcycle, -⟩ := reported_cycles_exact.2 .standard .root
      (Table.ofList [(⟨.root, "y"⟩, .int 2)]) (twisted.map fun definition => (definition, .root))
      (by simp [twisted, Definition.ofBody]) ⟨.root, "x"⟩ none
    refine ⟨result, after, hrun, hcycle ⟨⟨.root, "w"⟩, .single ?_, ?_⟩⟩
    on_goal 2 => refine .head (b := ⟨.root, "v"⟩) ?_ (.single ?_)
    all_goals decide +kernel

end Session
end Memograph
