import Memograph.Proofs.Footprint
import Memograph.Proofs.History

/-! How an environment evolves while a dialogue runs. A run comes back to the recomputes that were
running before it and registers nothing. It may invalidate slots, but it never moves an epoch back,
a slot loses its value only as the epoch of its dependency grows, and whatever the run changes of a
variable makes the epochs of all its registered readers grow. -/

namespace Memograph

variable {π α : Type}

/-- Whether a procedure that is registered under a name reads no more than it is registered with,
all of it where it succeeds, and stores no value but its own. -/
def Registration.Disciplined (meaning : Meaning π) (name : QualifiedName)
    (registration : Registration π) : Prop :=
  ∃ footprint : Footprint, footprint.reads ⊆ registration.reads ∧ footprint.stores ⊆ [name] ∧
    ∀ index, (meaning registration.procedure index).Follows footprint
      (fun asked _ => registration.reads ⊆ asked) []

namespace Environment

/-! ### Regular environments -/

/-- Whether all registrations of an environment have a property under their names. -/
def AllRegistered (P : QualifiedName → Registration π → Prop) (env : Environment π) : Prop :=
  ∀ name dependency, env.dependencies.get? name = some dependency →
    P name dependency.toRegistration

/-- Whether the readers of each name are the dependencies that are registered with it. -/
def Indexed (env : Environment π) : Prop :=
  ∀ read reader, reader ∈ env.readersOf read ↔
    ∃ dependency, env.dependencies.get? reader = some dependency ∧ read ∈ dependency.reads

/-- Whether each of some names has a dependency. -/
def Owns (env : Environment π) (names : List QualifiedName) : Prop :=
  ∀ name ∈ names, ∃ dependency, env.dependencies.get? name = some dependency

structure Regular (meaning : Meaning π) (env : Environment π) : Prop where
  disciplined : env.AllRegistered (Registration.Disciplined meaning)
  indexed : env.Indexed

/-- Whether two environments have the same dependencies but for their slots, epochs and counts. -/
structure SameDependencies (env after : Environment π) : Prop where
  readers : after.readers = env.readers
  signature : ∀ name, (after.dependencies.get? name).map Dependency.signature =
    (env.dependencies.get? name).map Dependency.signature

namespace SameDependencies

variable {env middle after : Environment π}

theorem refl (env : Environment π) : env.SameDependencies env := ⟨rfl, fun _ => rfl⟩

theorem symm (h : env.SameDependencies after) : after.SameDependencies env :=
  ⟨h.readers.symm, fun name => (h.signature name).symm⟩

theorem trans (h : env.SameDependencies middle) (h' : middle.SameDependencies after) :
    env.SameDependencies after :=
  ⟨h'.readers.trans h.readers, fun name => (h'.signature name).trans (h.signature name)⟩

theorem get?_eq_some (h : env.SameDependencies after) {name : QualifiedName}
    {dependency : Dependency π} (hname : env.dependencies.get? name = some dependency) :
    ∃ later, after.dependencies.get? name = some later ∧
      later.toRegistration = dependency.toRegistration ∧ later.serial = dependency.serial := by
  have hsignature := h.signature name
  rw [hname, Option.map_some, Option.map_eq_some_iff] at hsignature
  obtain ⟨later, hlater, heq⟩ := hsignature
  exact ⟨later, hlater, congrArg Prod.fst heq, congrArg Prod.snd heq⟩

theorem get?_eq_none_iff (h : env.SameDependencies after) (name : QualifiedName) :
    after.dependencies.get? name = none ↔ env.dependencies.get? name = none := by
  rw [← Option.map_eq_none_iff (f := Dependency.signature), h.signature, Option.map_eq_none_iff]

theorem shapeOf (h : env.SameDependencies after) (name : QualifiedName) :
    after.shapeOf name = env.shapeOf name := by
  have hshape : ∀ e : Environment π, e.shapeOf name =
      ((e.dependencies.get? name).map Dependency.signature).map fun entry => entry.1.shape := by
    intro e
    rw [Option.map_map]
    rfl
  rw [hshape, hshape, h.signature]

theorem owns (h : env.SameDependencies after) {names : List QualifiedName}
    (henv : env.Owns names) : after.Owns names := by
  intro name hname
  obtain ⟨dependency, hdependency⟩ := henv name hname
  obtain ⟨later, hlater, -, -⟩ := h.get?_eq_some hdependency
  exact ⟨later, hlater⟩

theorem reaches (h : env.SameDependencies after) : after.Reaches = env.Reaches :=
  reaches_of_readers_eq h.readers

theorem readersOf (h : env.SameDependencies after) (name : QualifiedName) :
    after.readersOf name = env.readersOf name := by
  unfold Environment.readersOf
  rw [h.readers]

theorem allRegistered {P : QualifiedName → Registration π → Prop} (h : env.SameDependencies after)
    (henv : env.AllRegistered P) : after.AllRegistered P := by
  intro name later hlater
  obtain ⟨dependency, hname, heq, -⟩ := h.symm.get?_eq_some hlater
  rw [← heq]
  exact henv name dependency hname

theorem indexed (h : env.SameDependencies after) (henv : env.Indexed) : after.Indexed := by
  intro read reader
  rw [h.readersOf, henv read reader]
  constructor
  · rintro ⟨dependency, hreader, hread⟩
    obtain ⟨later, hlater, heq, -⟩ := h.get?_eq_some hreader
    exact ⟨later, hlater, heq ▸ hread⟩
  · rintro ⟨later, hlater, hread⟩
    obtain ⟨dependency, hreader, heq, -⟩ := h.symm.get?_eq_some hlater
    exact ⟨dependency, hreader, heq ▸ hread⟩

theorem regular {meaning : Meaning π} (h : env.SameDependencies after)
    (henv : env.Regular meaning) : after.Regular meaning :=
  ⟨h.allRegistered henv.disciplined, h.indexed henv.indexed⟩

end SameDependencies

theorem owns_of_subset {env : Environment π} {name : QualifiedName} {dependency : Dependency π}
    (hname : env.dependencies.get? name = some dependency) {names : List QualifiedName}
    (h : names ⊆ [name]) : env.Owns names := by
  intro other hother
  obtain rfl := List.mem_singleton.mp (h hother)
  exact ⟨dependency, hname⟩

theorem owns_of_eq_nil (env : Environment π) {names : List QualifiedName} (h : names = []) :
    env.Owns names := by
  intro name hname
  rw [h] at hname
  cases hname

theorem sameDependencies_start {env : Environment π} {name : QualifiedName}
    {dependency : Dependency π} (h : env.dependencies.get? name = some dependency)
    (slot : Option Int64) : env.SameDependencies (env.start name dependency slot) := by
  refine ⟨rfl, fun key => ?_⟩
  rw [get?_start]
  by_cases hkey : key = name
  · subst hkey
    rw [if_pos rfl, h]
    rfl
  · rw [if_neg hkey]

theorem sameDependencies_finish {env : Environment π} {name : QualifiedName}
    {dependency : Dependency π} (h : env.dependencies.get? name = some dependency)
    (slot : Option Int64) (began : Nat) (result : Except Error Value) :
    env.SameDependencies (env.finish name dependency.serial began slot result) := by
  refine ⟨by rw [finish_eq h], fun key => ?_⟩
  rw [get?_finish h]
  by_cases hkey : key = name
  · subst hkey
    rw [if_pos rfl, h, Option.map_some, Option.map_some, Dependency.signature_finish]
  · rw [if_neg hkey]

theorem sameDependencies_store (env : Environment π) (name : QualifiedName) (value : Value) :
    env.SameDependencies (env.store name value) :=
  ⟨rfl, fun _ => rfl⟩

theorem sameDependencies_notify (env : Environment π) (name : QualifiedName) :
    env.SameDependencies (env.notify name).2 :=
  ⟨by rw [notify_snd], env.signature_notify name⟩

theorem sameDependencies_assign (env : Environment π) (name : QualifiedName) (value : Value) :
    env.SameDependencies (env.assign name value).2 :=
  (env.sameDependencies_store name value).trans (sameDependencies_notify _ name)

/-! ### What a run keeps -/

structure Evolves (env after : Environment π) : Prop where
  same : env.SameDependencies after
  config : after.config = env.config
  context : after.context = env.context
  stack : after.stack = env.stack
  registrations : after.registrations = env.registrations
  running : ∀ name index,
    after.statusOf name index = .evaluating ↔ env.statusOf name index = .evaluating
  epoch : ∀ name, env.epochOf name ≤ after.epochOf name
  kept : ∀ name index value, env.statusOf name index = .valid value →
    after.statusOf name index = .valid value ∨ env.epochOf name < after.epochOf name
  spread : ∀ read reader dependency, env.dependencies.get? reader = some dependency →
    read ∈ dependency.reads → env.epochOf read < after.epochOf read →
      env.epochOf reader < after.epochOf reader
  stored : ∀ read reader dependency, env.dependencies.get? reader = some dependency →
    read ∈ dependency.reads → env.dependencies.get? read = none →
      after.stored.get? read = env.stored.get? read ∨
        env.epochOf reader < after.epochOf reader
  assigned : ∀ name, env.stored.get? name ≠ none → after.stored.get? name ≠ none

namespace Evolves

theorem refl (env : Environment π) : env.Evolves env where
  same := .refl env
  config := rfl
  context := rfl
  stack := rfl
  registrations := rfl
  running := fun _ _ => Iff.rfl
  epoch := fun _ => Nat.le_refl _
  kept := fun _ _ _ h => Or.inl h
  spread := fun _ _ _ _ _ h => absurd h (Nat.lt_irrefl _)
  stored := fun _ _ _ _ _ _ => Or.inl rfl
  assigned := fun _ h => h

theorem trans {env middle after : Environment π} (h : env.Evolves middle)
    (h' : middle.Evolves after) : env.Evolves after where
  same := h.same.trans h'.same
  config := h'.config.trans h.config
  context := h'.context.trans h.context
  stack := h'.stack.trans h.stack
  registrations := h'.registrations.trans h.registrations
  running := fun name index => (h'.running name index).trans (h.running name index)
  epoch := fun name => (h.epoch name).trans (h'.epoch name)
  kept := by
    intro name index value hvalid
    rcases h.kept name index value hvalid with hmiddle | hgrew
    · rcases h'.kept name index value hmiddle with hafter | hgrew
      · exact Or.inl hafter
      · exact Or.inr (Nat.lt_of_le_of_lt (h.epoch name) hgrew)
    · exact Or.inr (Nat.lt_of_lt_of_le hgrew (h'.epoch name))
  spread := by
    intro read reader dependency hreader hread hgrew
    by_cases hfirst : env.epochOf read < middle.epochOf read
    · have := h.spread read reader dependency hreader hread hfirst
      exact Nat.lt_of_lt_of_le this (h'.epoch reader)
    · obtain ⟨later, hlater, heq, -⟩ := h.same.get?_eq_some hreader
      have hsecond : middle.epochOf read < after.epochOf read := by omega
      have := h'.spread read reader later hlater (heq ▸ hread) hsecond
      exact Nat.lt_of_le_of_lt (h.epoch reader) this
  stored := by
    intro read reader dependency hreader hread hnone
    rcases h.stored read reader dependency hreader hread hnone with hfirst | hgrew
    · obtain ⟨later, hlater, heq, -⟩ := h.same.get?_eq_some hreader
      have hnone' := (h.same.get?_eq_none_iff read).mpr hnone
      rcases h'.stored read reader later hlater (heq ▸ hread) hnone' with hsecond | hgrew
      · exact Or.inl (hsecond.trans hfirst)
      · exact Or.inr (Nat.lt_of_le_of_lt (h.epoch reader) hgrew)
    · exact Or.inr (Nat.lt_of_lt_of_le hgrew (h'.epoch reader))
  assigned := fun name hname => h'.assigned name (h.assigned name hname)

end Evolves

section Steps

variable {env : Environment π}

theorem reaches_of_mem_reads (hindexed : env.Indexed) {first read reader : QualifiedName}
    {dependency : Dependency π} (hreader : env.dependencies.get? reader = some dependency)
    (hread : read ∈ dependency.reads) (h : env.Reaches first read) : env.Reaches first reader :=
  h.tail ((hindexed read reader).mpr ⟨dependency, hreader, hread⟩)

theorem epochOf_notify_le (env : Environment π) (name key : QualifiedName) :
    env.epochOf key ≤ (env.notify name).2.epochOf key := by
  by_cases hreaches : env.Reaches name key
  · cases hkey : env.dependencies.get? key with
    | none =>
        rw [epochOf, hkey]
        exact Nat.zero_le _
    | some dependency =>
        rw [epochOf_notify_of_reaches env hreaches hkey]
        exact Nat.le_succ _
  · rw [epochOf_notify_of_not_reaches env hreaches]

theorem reaches_of_epochOf_notify_lt {name key : QualifiedName}
    (h : env.epochOf key < (env.notify name).2.epochOf key) : env.Reaches name key := by
  by_contra hreaches
  rw [epochOf_notify_of_not_reaches env hreaches] at h
  exact Nat.lt_irrefl _ h

theorem evolves_notify (hindexed : env.Indexed) (name : QualifiedName) :
    env.Evolves (env.notify name).2 where
  same := env.sameDependencies_notify name
  config := by rw [notify_snd]
  context := by rw [notify_snd]
  stack := by rw [notify_snd]
  registrations := by rw [notify_snd]
  running := env.evaluating_notify_iff name
  epoch := env.epochOf_notify_le name
  kept := by
    intro key index value hvalid
    by_cases hreaches : env.Reaches name key
    · have hne : env.statusOf key index ≠ .uninitialized := by simp [hvalid]
      obtain ⟨dependency, hkey⟩ := get?_isSome_of_statusOf hne
      rw [epochOf_notify_of_reaches env hreaches hkey]
      exact Or.inr (Nat.lt_succ_self _)
    · rw [statusOf_notify_of_not_reaches env hreaches]
      exact Or.inl hvalid
  spread := by
    intro read reader dependency hreader hread hgrew
    have hreaches :=
      reaches_of_mem_reads hindexed hreader hread (reaches_of_epochOf_notify_lt hgrew)
    rw [epochOf_notify_of_reaches env hreaches hreader]
    exact Nat.lt_succ_self _
  stored := by
    intro read reader dependency hreader hread hnone
    rw [notify_snd]
    exact Or.inl rfl
  assigned := by
    intro key hkey
    rw [notify_snd]
    exact hkey

theorem get?_store_ne_none {name key : QualifiedName} (value : Value)
    (h : env.stored.get? key ≠ none) : (env.store name value).stored.get? key ≠ none := by
  rw [store, Table.get?_insert]
  split
  · exact Option.some_ne_none value
  · exact h

theorem evolves_store {name : QualifiedName} {dependency : Dependency π}
    (h : env.dependencies.get? name = some dependency) (value : Value) :
    env.Evolves (env.store name value) where
  same := env.sameDependencies_store name value
  config := rfl
  context := rfl
  stack := rfl
  registrations := rfl
  running := fun _ _ => Iff.rfl
  epoch := fun _ => Nat.le_refl _
  kept := fun _ _ _ hvalid => Or.inl hvalid
  spread := fun _ _ _ _ _ hgrew => absurd hgrew (Nat.lt_irrefl _)
  stored := by
    intro read reader later hreader hread hnone
    have hne : read ≠ name := by
      rintro rfl
      rw [h] at hnone
      cases hnone
    left
    rw [store, Table.get?_insert, if_neg hne]
  assigned := fun _ hkey => get?_store_ne_none value hkey

/-- An assignment changes the value of one variable and makes the epochs of all its readers
grow. -/
theorem evolves_assign (hindexed : env.Indexed) (name : QualifiedName) (value : Value) :
    env.Evolves (env.assign name value).2 := by
  have hnotify := evolves_notify
    ((env.sameDependencies_store name value).indexed hindexed) name
  exact
    { hnotify with
      same := env.sameDependencies_assign name value
      stored := by
        intro read reader dependency hreader hread hnone
        by_cases hread' : read = name
        · subst hread'
          have hreaches := reaches_of_mem_reads hindexed hreader hread .refl
          right
          change (env.store read value).epochOf reader <
            ((env.store read value).notify read).2.epochOf reader
          rw [epochOf_notify_of_reaches (env.store read value) hreaches hreader]
          exact Nat.lt_succ_self _
        · left
          rw [assign, notify_snd, store, Table.get?_insert, if_neg hread']
      assigned := fun key hkey => hnotify.assigned key (get?_store_ne_none value hkey) }

/-- A recompute leaves the slot with a value or without one and is otherwise what the run of its
procedure is. -/
theorem Evolves.recompute {middle : Environment π} {name : QualifiedName}
    {dependency : Dependency π} {slot : Option Int64}
    (hname : env.dependencies.get? name = some dependency)
    (hstatus : dependency.status slot = .uninitialized)
    (h : (env.start name dependency slot).Evolves middle) (began : Nat)
    (result : Except Error Value) :
    env.Evolves (middle.finish name dependency.serial began slot result) := by
  have hstart := sameDependencies_start hname slot
  obtain ⟨later, hlater, heq, hserial⟩ := (hstart.trans h.same).get?_eq_some hname
  rw [← hserial]
  have hepoch : ∀ key, (middle.finish name later.serial began slot result).epochOf key =
      middle.epochOf key := epochOf_finish hlater slot began result
  have hempty : env.statusOf name slot = .uninitialized := by
    rw [statusOf_of_get? hname, hstatus]
  have hother : ∀ key index, ¬(key = name ∧ index = slot) →
      (env.start name dependency slot).statusOf key index = env.statusOf key index ∧
        (middle.finish name later.serial began slot result).statusOf key index =
          middle.statusOf key index := by
    intro key index hne
    rw [statusOf_start hname, statusOf_finish hlater, if_neg hne, if_neg hne]
    exact ⟨rfl, rfl⟩
  constructor
  case same => exact (hstart.trans h.same).trans (sameDependencies_finish hlater slot began result)
  case config =>
    rw [finish_eq hlater]
    exact h.config
  case context =>
    rw [finish_eq hlater]
    exact h.context
  case stack =>
    rw [finish_eq hlater]
    exact congrArg List.tail h.stack
  case registrations =>
    rw [finish_eq hlater]
    exact h.registrations
  case running =>
    intro key index
    rw [evaluating_finish_iff hlater, h.running, evaluating_start_iff hname]
    by_cases hslot : key = name ∧ index = slot
    · simp [hslot, hempty]
    · simp [hslot]
  case epoch =>
    intro key
    rw [hepoch, ← epochOf_start hname slot key]
    exact h.epoch key
  case kept =>
    intro key index value hvalid
    have hslot : ¬(key = name ∧ index = slot) := by
      rintro ⟨rfl, rfl⟩
      rw [hempty] at hvalid
      cases hvalid
    obtain ⟨hbefore, hafter⟩ := hother key index hslot
    rw [hafter, hepoch, ← epochOf_start hname slot key]
    exact h.kept key index value (hbefore.trans hvalid)
  case spread =>
    intro read reader first hreader hread hgrew
    obtain ⟨started, hstarted, hsame, -⟩ := hstart.get?_eq_some hreader
    rw [hepoch, ← epochOf_start hname slot] at hgrew ⊢
    exact h.spread read reader started hstarted (hsame ▸ hread) hgrew
  case stored =>
    intro read reader first hreader hread hnone
    obtain ⟨started, hstarted, hsame, -⟩ := hstart.get?_eq_some hreader
    rw [hepoch, ← epochOf_start hname slot, finish_eq hlater]
    exact h.stored read reader started hstarted (hsame ▸ hread)
      ((hstart.get?_eq_none_iff read).mpr hnone)
  case assigned =>
    intro key hkey
    rw [finish_eq hlater]
    exact h.assigned key hkey

end Steps

/-! ### Runs -/

/-- Whether a relation of two environments and the events between them holds along each event of a
run, and along each recompute as a whole if it holds along the run of its procedure. -/
structure Steady (meaning : Meaning π)
    (R : Environment π → List (Event π) → Environment π → Prop) : Prop where
  refl : ∀ env, R env [] env
  trans : ∀ {env middle after first rest}, R env first middle → R middle rest after →
    R env (first ++ rest) after
  same : ∀ {env events after}, R env events after → env.SameDependencies after
  replied : ∀ {env} {request : Request π}, request.launch? env = none → request.effect env = env →
    R env [.asked request] env
  assign : ∀ {env} name value, env.Regular meaning →
    R env [.asked (.assign name value)] (env.assign name value).2
  store : ∀ {env name dependency} value, env.Regular meaning →
    env.dependencies.get? name = some dependency →
      R env [.asked (.store name value)] (env.store name value)
  recompute : ∀ {env depth result middle} (launch : Launch π), env.Regular meaning →
    launch.Enabled env →
    nested meaning depth (launch.dialogue meaning) (launch.start env) = some (result, middle) →
    R (launch.start env) (innerHistory meaning depth (launch.dialogue meaning) (launch.start env))
      middle →
    R env (.began launch ::
        (innerHistory meaning depth (launch.dialogue meaning) (launch.start env) ++
          [.ended launch result]))
      (launch.finish middle result)

theorem nested_eq_some {meaning : Meaning π} {depth : Nat} {d : Dialogue π (Except Error Value)}
    {env : Environment π} {outcome : Except Error Value × Environment π}
    (h : nested meaning depth d env = some outcome) :
    ∃ inner, depth = inner + 1 ∧
      converse (respond (nested meaning inner) meaning) d env = some outcome := by
  cases depth with
  | zero => cases h
  | succ depth =>
      rw [nested, runWithin_eq_converse] at h
      exact ⟨depth, rfl, h⟩

namespace Steady

variable {meaning : Meaning π} {R : Environment π → List (Event π) → Environment π → Prop}

/-- Reading is at most one recompute. -/
theorem read_of_nested (h : Steady meaning R) {depth : Nat}
    (hnested : ∀ {env : Environment π} {name : QualifiedName} {dependency : Dependency π}
      {slot : Option Int64} {whole : Except Error Value} {middle : Environment π},
      env.Regular meaning → env.dependencies.get? name = some dependency →
      Environment.nested meaning depth (meaning dependency.procedure slot)
        (env.start name dependency slot) = some (whole, middle) →
      R (env.start name dependency slot)
        (innerHistory meaning depth (meaning dependency.procedure slot)
          (env.start name dependency slot)) middle)
    {env after : Environment π} {name : QualifiedName} {index : Option Int64}
    {result : Except Error Value} (henv : env.Regular meaning)
    (hread : env.read (Environment.nested meaning depth) meaning name index =
      some (result, after)) :
    R env (requestEvents (innerHistory meaning depth) (Environment.nested meaning depth) meaning
      (.read name index) env) after := by
  have hreply : respond (Environment.nested meaning depth) meaning (.read name index) env =
      some (result, after) := hread
  unfold requestEvents
  cases hlaunch : (Request.read name index).launch? env with
  | none =>
      obtain ⟨reply, hrespond⟩ := exists_respond_of_launch?_eq_none meaning hlaunch
      rw [hrespond] at hreply
      cases hreply
      exact h.replied hlaunch rfl
  | some launch =>
      obtain ⟨reply, hrespond⟩ := exists_respond_of_launch? meaning hlaunch
      rw [hrespond, Option.map_eq_some_iff] at hreply
      obtain ⟨⟨whole, middle⟩, hrun, heq⟩ := hreply
      cases heq
      have henabled := enabled_of_launch? hlaunch
      dsimp only [Environment.recompute]
      rw [hrun]
      exact h.recompute launch henv henabled hrun (hnested henv henabled.registered hrun)

theorem converse (h : Steady meaning R) {depth : Nat}
    (hread : ∀ {env : Environment π} {name : QualifiedName} {index : Option Int64}
      {result : Except Error Value} {after : Environment π}, env.Regular meaning →
      env.read (Environment.nested meaning depth) meaning name index = some (result, after) →
        R env (requestEvents (innerHistory meaning depth) (Environment.nested meaning depth) meaning
          (.read name index) env) after)
    {footprint : Footprint} {post : List QualifiedName → α → Prop} {asked : List QualifiedName}
    {d : Dialogue π (Except Error α)} (hd : d.Follows footprint post asked)
    {env after : Environment π} {result : Except Error α} (henv : env.Regular meaning)
    (hstores : env.Owns footprint.stores)
    (hrun : Environment.converse (respond (Environment.nested meaning depth) meaning) d env =
      some (result, after)) :
    R env (events (innerHistory meaning depth) (Environment.nested meaning depth) meaning d env)
      after := by
  induction hd generalizing env with
  | failed cause =>
      cases hrun
      exact h.refl _
  | done hpost =>
      cases hrun
      exact h.refl _
  | @read asked name index next hname hfailed hnext ih =>
      obtain ⟨answer, middle, hreply, hrest⟩ := converse_ask_eq_some hrun
      have hstep := hread henv hreply
      rw [events_ask hreply]
      refine h.trans hstep ?_
      cases answer with
      | error cause =>
          rw [hfailed] at hrest ⊢
          cases hrest
          exact h.refl _
      | ok value => exact ih value ((h.same hstep).regular henv) ((h.same hstep).owns hstores) hrest
  | @assign asked name value rest hname hrest ih =>
      have hstep := h.assign name value henv
      exact h.trans hstep (ih ((h.same hstep).regular henv) ((h.same hstep).owns hstores) hrun)
  | @store asked name value rest hname hrest ih =>
      obtain ⟨dependency, hdependency⟩ := hstores name hname
      have hstep := h.store value henv hdependency
      exact h.trans hstep (ih ((h.same hstep).regular henv) ((h.same hstep).owns hstores) hrun)

/-- The recomputes of a regular environment keep the relation, however deep they nest. -/
theorem nested (h : Steady meaning R) (depth : Nat) {env middle : Environment π}
    {name : QualifiedName} {dependency : Dependency π} {slot : Option Int64}
    {whole : Except Error Value} (henv : env.Regular meaning)
    (hname : env.dependencies.get? name = some dependency)
    (hrun : Environment.nested meaning depth (meaning dependency.procedure slot)
      (env.start name dependency slot) = some (whole, middle)) :
    R (env.start name dependency slot)
      (innerHistory meaning depth (meaning dependency.procedure slot)
        (env.start name dependency slot)) middle := by
  induction depth generalizing env middle name dependency slot whole with
  | zero => cases hrun
  | succ depth ih =>
      have hstart := sameDependencies_start hname slot
      obtain ⟨footprint, -, hstores, hfollows⟩ := henv.disciplined name dependency hname
      rw [Environment.nested, runWithin_eq_converse] at hrun
      exact h.converse (h.read_of_nested ih) (hfollows slot) (hstart.regular henv)
        (hstart.owns (owns_of_subset hname hstores)) hrun

theorem read (h : Steady meaning R) {depth : Nat} {env after : Environment π}
    {name : QualifiedName} {index : Option Int64} {result : Except Error Value}
    (henv : env.Regular meaning)
    (hread : env.read (Environment.nested meaning depth) meaning name index =
      some (result, after)) :
    R env (requestEvents (innerHistory meaning depth) (Environment.nested meaning depth) meaning
      (.read name index) env) after :=
  h.read_of_nested (h.nested depth) henv hread

/-- A run from a regular environment keeps the relation. -/
theorem runWithin (h : Steady meaning R) {depth : Nat} {footprint : Footprint}
    {post : List QualifiedName → α → Prop} {asked : List QualifiedName}
    {d : Dialogue π (Except Error α)} (hd : d.Follows footprint post asked)
    {env after : Environment π} {result : Except Error α} (henv : env.Regular meaning)
    (hstores : env.Owns footprint.stores)
    (hrun : Environment.runWithin meaning depth d env = some (result, after)) :
    R env (history meaning depth d env) after := by
  rw [runWithin_eq_converse] at hrun
  exact h.converse h.read hd henv hstores hrun

end Steady

theorem steady_evolves (meaning : Meaning π) :
    Steady meaning fun env _ after => env.Evolves after where
  refl := Evolves.refl
  trans := Evolves.trans
  same := Evolves.same
  replied := fun _ _ => .refl _
  assign := fun name value henv => evolves_assign henv.indexed name value
  store := fun value _ hname => evolves_store hname value
  recompute := fun _ _ henabled _ h => h.recompute henabled.registered henabled.empty _ _

end Environment
end Memograph
