import Memograph.Proofs.History

/-! What events do to the dependencies that an environment holds: those with a name, and those that
lost it while a recompute of theirs was running. Serial numbers tell them apart, whatever their
names, and each event changes every dependency that it finds in a way of its own. -/

open Relation

namespace Memograph

variable {π : Type}

theorem Dependency.slots_invalidate_of_empty {dependency : Dependency π}
    (h : dependency.slots = ∅) : dependency.invalidate.slots = ∅ := by
  unfold invalidate
  dsimp only
  rw [h]
  cases dependency.shape <;> rfl

namespace Environment

/-- The registered dependencies and, behind them, the superseded ones. -/
def held (env : Environment π) : List (Dependency π) := env.dependencies.values ++ env.superseded

theorem mem_held_iff (env : Environment π) (dependency : Dependency π) :
    dependency ∈ env.held ↔
      (∃ name, env.dependencies.get? name = some dependency) ∨ dependency ∈ env.superseded := by
  rw [held, List.mem_append, Table.mem_values_iff]

theorem mem_held_of_get? {env : Environment π} {name : QualifiedName} {dependency : Dependency π}
    (h : env.dependencies.get? name = some dependency) : dependency ∈ env.held :=
  (env.mem_held_iff dependency).mpr (Or.inl ⟨name, h⟩)

/-- Whether a cascade from a name visits the registered dependency with a serial number. -/
def cascadesTo (env : Environment π) (name : QualifiedName) (serial : Nat) : Bool :=
  (env.notify name).1.any fun key =>
    (env.dependencies.get? key).any fun dependency => dependency.serial == serial

theorem cascadesTo_iff (env : Environment π) (name : QualifiedName) (serial : Nat) :
    env.cascadesTo name serial = true ↔ ∃ key dependency, env.Reaches name key ∧
      env.dependencies.get? key = some dependency ∧ dependency.serial = serial := by
  unfold cascadesTo notify
  simp only [List.any_eq_true, List.mem_filter, mem_reached_iff, Option.any_eq_true, beq_iff_eq]
  constructor
  · rintro ⟨key, ⟨hreaches, -⟩, dependency, hkey, hserial⟩
    exact ⟨key, dependency, hreaches, hkey, hserial⟩
  · rintro ⟨key, dependency, hreaches, hkey, hserial⟩
    exact ⟨key, ⟨hreaches, by rw [Table.contains, hkey, Option.isSome_some]⟩, dependency, hkey,
      hserial⟩

end Environment

namespace Request

/-- The name that a request has a cascade from. -/
def cascade? (env : Environment π) : Request π → Option QualifiedName
  | .assign name _ | .notify name => some name
  | .register name _ =>
    match env.dependencies.get? name, env.config.redefinition with
    | some _, .replace => some name
    | _, _ => none
  | _ => none

/-- The name that a request gives to a new dependency. -/
def installs? (env : Environment π) : Request π → Option QualifiedName
  | .register name _ =>
    match env.dependencies.get? name, env.config.redefinition with
    | some _, .reject => none
    | _, _ => some name
  | _ => none

/-- What a request makes of an environment before the cascade, if it has one. -/
def prepare (env : Environment π) : Request π → Environment π
  | .assign name value | .store name value => env.store name value
  | .register name registration =>
    match env.dependencies.get? name, env.config.redefinition with
    | none, _ => env.enroll name registration
    | some old, .replace => env.supersede name old registration
    | some _, .reject => env
  | .enter context => { env with context }
  | .note answer => { env with journal := env.journal ++ [answer] }
  | _ => env

theorem effect_eq (env : Environment π) (request : Request π) :
    request.effect env =
      match request.cascade? env with
      | none => request.prepare env
      | some name => ((request.prepare env).notify name).2 := by
  cases request with
  | register name registration =>
      dsimp only [effect, cascade?, prepare]
      rcases env.register_cases name registration with
        ⟨hname, hregister⟩ | ⟨old, hname, hconfig, hregister⟩ | ⟨old, hname, hconfig, hregister⟩
      · simp only [hname, hregister]
      · simp only [hname, hconfig, hregister]
      · simp only [hname, hconfig, hregister]
  | _ => rfl

/-- A request installs a dependency before its cascade, or leaves all dependencies as they are. -/
theorem prepare_cases (env : Environment π) (request : Request π) :
    (request.installs? env = none ∧ (request.prepare env).dependencies = env.dependencies ∧
      (request.prepare env).superseded = env.superseded ∧
      (request.prepare env).registrations = env.registrations ∧
      (request.prepare env).stack = env.stack) ∨
    ∃ name registration, request.installs? env = some name ∧
      ((env.dependencies.get? name = none ∧
        request.prepare env = env.enroll name registration) ∨
      ∃ old, env.dependencies.get? name = some old ∧
        request.prepare env = env.supersede name old registration) := by
  cases request with
  | register name registration =>
      dsimp only [installs?, prepare]
      cases hname : env.dependencies.get? name with
      | none => exact Or.inr ⟨name, registration, rfl, Or.inl ⟨hname, rfl⟩⟩
      | some old =>
          cases env.config.redefinition with
          | reject => exact Or.inl ⟨rfl, rfl, rfl, rfl, rfl⟩
          | replace => exact Or.inr ⟨name, registration, rfl, Or.inr ⟨old, hname, rfl⟩⟩
  | _ => exact Or.inl ⟨rfl, rfl, rfl, rfl, rfl⟩

end Request

namespace Event

/-- Whether an event has a cascade that visits the dependency with a serial number. -/
def visits (env : Environment π) (serial : Nat) : Event π → Bool
  | .asked request =>
    (request.cascade? env).any fun name => (request.prepare env).cascadesTo name serial
  | _ => false

/-- What an event makes of a dependency that it finds. -/
def alter (env : Environment π) (dependency : Dependency π) : Event π → Dependency π
  | .asked request =>
    if (Event.asked request).visits env dependency.serial then dependency.invalidate
    else dependency
  | .began launch =>
    if dependency.serial = launch.dependency.serial then dependency.start launch.slot
    else dependency
  | .ended launch result =>
    if dependency.serial = launch.dependency.serial then
      dependency.finish launch.slot launch.dependency.epoch result
    else dependency

/-- The name that an event gives to a new dependency. -/
def installs? (env : Environment π) : Event π → Option QualifiedName
  | .asked request => request.installs? env
  | _ => none

theorem serial_alter (env : Environment π) (dependency : Dependency π) (event : Event π) :
    (event.alter env dependency).serial = dependency.serial := by
  cases event with
  | asked request =>
      dsimp only [alter]
      split <;> rfl
  | began launch =>
      dsimp only [alter]
      split <;> rfl
  | ended launch result =>
      dsimp only [alter]
      split
      · exact congrArg Prod.snd (dependency.signature_finish _ _ _)
      · rfl

end Event

namespace Environment

/-- Whether serial numbers tell the held dependencies apart, the superseded ones are in flight, and
no dependency of a frame has another name than the frame says. -/
structure Identified (env : Environment π) : Prop where
  serials : (env.held.map Dependency.serial).Nodup
  numbered : ∀ serial ∈ env.held.map Dependency.serial, serial < env.registrations
  detached : ∀ old ∈ env.superseded, old.inFlight = true
  begun : ∀ frame ∈ env.stack, frame.serial < env.registrations
  taken : ∀ frame ∈ env.stack, ∃ dependency, env.dependencies.get? frame.name = some dependency
  owned : ∀ frame ∈ env.stack, ∀ name dependency,
    env.dependencies.get? name = some dependency → dependency.serial = frame.serial →
      name = frame.name

namespace Identified

variable {env : Environment π}

theorem eq_of_serial (h : env.Identified) {name name' : QualifiedName}
    {dependency dependency' : Dependency π} (hname : env.dependencies.get? name = some dependency)
    (hname' : env.dependencies.get? name' = some dependency')
    (hserial : dependency.serial = dependency'.serial) : name = name' := by
  have hentries : (env.dependencies.entries.map fun entry => entry.2.serial).Nodup := by
    have hnodup := h.serials
    rw [held, List.map_append, Table.values, List.map_map] at hnodup
    exact hnodup.of_append_left
  have hmem := (Table.get?_eq_some_iff _ _ _).mp hname
  have hmem' := (Table.get?_eq_some_iff _ _ _).mp hname'
  exact congrArg Prod.fst (List.inj_on_of_nodup_map hentries hmem hmem' hserial)

theorem serial_ne_of_superseded (h : env.Identified) {name : QualifiedName}
    {dependency old : Dependency π} (hname : env.dependencies.get? name = some dependency)
    (hold : old ∈ env.superseded) : dependency.serial ≠ old.serial := by
  have hnodup := h.serials
  rw [held, List.map_append, List.nodup_append] at hnodup
  exact hnodup.2.2 _ (List.mem_map_of_mem (Table.mem_values_of_get? hname)) _
    (List.mem_map_of_mem hold)

theorem eq_of_mem_held (h : env.Identified) {dependency dependency' : Dependency π}
    (hmem : dependency ∈ env.held) (hmem' : dependency' ∈ env.held)
    (hserial : dependency.serial = dependency'.serial) : dependency = dependency' :=
  List.inj_on_of_nodup_map h.serials hmem hmem' hserial

/-- A cascade visits a dependency exactly if it reaches its name. -/
theorem cascadesTo_iff_reaches (h : env.Identified) {key : QualifiedName}
    {dependency : Dependency π} (hkey : env.dependencies.get? key = some dependency)
    (name : QualifiedName) :
    env.cascadesTo name dependency.serial = true ↔ env.Reaches name key := by
  rw [cascadesTo_iff]
  constructor
  · rintro ⟨key', dependency', hreaches, hkey', hserial⟩
    rwa [← h.eq_of_serial hkey' hkey hserial]
  · intro hreaches
    exact ⟨key, dependency, hreaches, hkey, rfl⟩

theorem not_cascadesTo_superseded (h : env.Identified) {old : Dependency π}
    (hold : old ∈ env.superseded) (name : QualifiedName) :
    env.cascadesTo name old.serial = false := by
  rw [Bool.eq_false_iff, ne_eq, cascadesTo_iff]
  rintro ⟨key, dependency, -, hkey, hserial⟩
  exact h.serial_ne_of_superseded hkey hold hserial

theorem serial_lt (h : env.Identified) {dependency : Dependency π}
    (hmem : dependency ∈ env.held) : dependency.serial < env.registrations :=
  h.numbered _ (List.mem_map_of_mem hmem)

end Identified

/-! ### Steps -/

section Steps

variable {env after : Environment π}

/-- Changes of what dependencies hold, and the end of recomputes, leave the serial numbers. -/
theorem Identified.of_sublist (h : env.Identified)
    (hsame : after.dependencies.mapValues Dependency.serial =
      env.dependencies.mapValues Dependency.serial)
    (hsuperseded : List.Sublist (after.superseded.map Dependency.serial)
      (env.superseded.map Dependency.serial))
    (hdetached : ∀ old ∈ after.superseded, old.inFlight = true)
    (hregistrations : after.registrations = env.registrations)
    (hstack : after.stack ⊆ env.stack) : after.Identified := by
  have hheld :
      List.Sublist (after.held.map Dependency.serial) (env.held.map Dependency.serial) := by
    rw [held, held, List.map_append, List.map_append, Table.map_values, Table.map_values, hsame]
    exact hsuperseded.append_left _
  have hget : ∀ name, (after.dependencies.get? name).map Dependency.serial =
      (env.dependencies.get? name).map Dependency.serial := by
    intro name
    rw [← Table.get?_mapValues, ← Table.get?_mapValues, hsame]
  constructor
  case serials => exact h.serials.sublist hheld
  case numbered =>
    intro serial hserial
    rw [hregistrations]
    exact h.numbered serial (hheld.subset hserial)
  case detached => exact hdetached
  case begun =>
    intro frame hframe
    rw [hregistrations]
    exact h.begun frame (hstack hframe)
  case taken =>
    intro frame hframe
    obtain ⟨dependency, hname⟩ := h.taken frame (hstack hframe)
    have hlater := hget frame.name
    rw [hname, Option.map_some, Option.map_eq_some_iff] at hlater
    obtain ⟨later, hlater, -⟩ := hlater
    exact ⟨later, hlater⟩
  case owned =>
    intro frame hframe name later hlater hserial
    have hbefore := hget name
    rw [hlater, Option.map_some, eq_comm, Option.map_eq_some_iff] at hbefore
    obtain ⟨dependency, hname, heq⟩ := hbefore
    exact h.owned frame (hstack hframe) name dependency hname (heq.trans hserial)

theorem Identified.notify (h : env.Identified) (name : QualifiedName) :
    (env.notify name).2.Identified := by
  refine h.of_sublist (mapValues_notify (fun _ => rfl) env name) ?_ ?_ ?_ ?_
  all_goals rw [notify_snd]
  · exact h.detached
  · exact List.Subset.refl _

/-- A new dependency has a serial number that no other one ever had. -/
theorem Identified.installs (h : env.Identified) {name : QualifiedName}
    {registration : Registration π} (hinstalls : env.Installs after name registration)
    (hheld : List.Subperm after.held
      (Dependency.ofRegistration env.registrations registration :: env.held))
    (hdetached : ∀ old ∈ after.superseded, old.inFlight = true)
    (hregistrations : after.registrations = env.registrations + 1) : after.Identified := by
  have hfresh : env.registrations ∉ env.held.map Dependency.serial := fun hmem =>
    Nat.lt_irrefl _ (h.numbered _ hmem)
  have hserials : List.Subperm (after.held.map Dependency.serial)
      (env.registrations :: env.held.map Dependency.serial) := by
    obtain ⟨dependencies, hperm, hsublist⟩ := hheld
    exact ⟨dependencies.map Dependency.serial, hperm.map _, hsublist.map _⟩
  constructor
  case serials =>
    obtain ⟨serials, hperm, hsublist⟩ := hserials
    exact hperm.nodup ((List.nodup_cons.mpr ⟨hfresh, h.serials⟩).sublist hsublist)
  case numbered =>
    intro serial hserial
    rw [hregistrations]
    rcases List.mem_cons.mp (hserials.subset hserial) with rfl | hbefore
    · exact Nat.lt_succ_self _
    · exact Nat.lt_succ_of_lt (h.numbered serial hbefore)
  case detached => exact hdetached
  case begun =>
    intro frame hframe
    rw [hinstalls.stack] at hframe
    rw [hregistrations]
    exact Nat.lt_succ_of_lt (h.begun frame hframe)
  case taken =>
    intro frame hframe
    rw [hinstalls.stack] at hframe
    obtain ⟨dependency, hdependency⟩ := h.taken frame hframe
    rw [hinstalls.get?]
    split
    · exact ⟨_, rfl⟩
    · exact ⟨dependency, hdependency⟩
  case owned =>
    intro frame hframe key dependency hkey hserial
    rw [hinstalls.stack] at hframe
    rw [hinstalls.get?] at hkey
    split at hkey
    · cases hkey
      have hbegun := h.begun frame hframe
      rw [← hserial] at hbegun
      exact absurd hbegun (Nat.lt_irrefl _)
    · exact h.owned frame hframe key dependency hkey hserial

theorem Identified.enroll (h : env.Identified) {name : QualifiedName}
    (hname : env.dependencies.get? name = none) (registration : Registration π) :
    (env.enroll name registration).Identified := by
  refine h.installs (installs_enroll env name registration) (List.Perm.subperm ?_) h.detached rfl
  change List.Perm ((env.dependencies.insert name _).values ++ env.superseded) _
  rw [Table.values_insert_of_get?_eq_none _ hname, List.append_assoc]
  exact List.perm_middle

theorem Identified.supersede (h : env.Identified) {name : QualifiedName} {old : Dependency π}
    (hname : env.dependencies.get? name = some old) (registration : Registration π) :
    (env.supersede name old registration).Identified := by
  have hperm : List.Perm
      (old :: ((env.dependencies.insert name
        (Dependency.ofRegistration env.registrations registration)).values ++ env.superseded))
      (Dependency.ofRegistration env.registrations registration :: env.held) :=
    (Table.perm_values_insert _ hname).append_right env.superseded
  refine h.installs (installs_supersede env name old registration) ?_ ?_ rfl
  · unfold held Environment.supersede
    dsimp only
    split
    · refine List.Perm.subperm (List.Perm.trans ?_ hperm)
      rw [← List.append_assoc]
      exact List.perm_append_singleton old _
    · exact (List.sublist_cons_self old _).subperm.trans hperm.subperm
  · unfold Environment.supersede
    dsimp only
    split
    · next hflight =>
        intro dependency hmem
        rcases List.mem_append.mp hmem with hmem | hmem
        · exact h.detached dependency hmem
        · rw [List.mem_singleton.mp hmem]
          exact hflight
    · exact h.detached

theorem Identified.start (h : env.Identified) {launch : Launch π} (henabled : launch.Enabled env) :
    (launch.start env).Identified := by
  have hname := henabled.registered
  have hsame : (launch.start env).dependencies.mapValues Dependency.serial =
      env.dependencies.mapValues Dependency.serial :=
    Table.mapValues_insert_of_eq hname rfl
  have hold : ({ launch.start env with stack := env.stack } : Environment π).Identified :=
    h.of_sublist hsame (List.Sublist.refl _) h.detached rfl (List.Subset.refl _)
  have hget : ∀ key dependency, (launch.start env).dependencies.get? key = some dependency →
      dependency.serial = launch.dependency.serial → key = launch.name := by
    intro key dependency hkey hserial
    refine hold.eq_of_serial hkey (?_ : _ = some (launch.dependency.start launch.slot)) hserial
    change (env.dependencies.insert launch.name _).get? launch.name = _
    rw [Table.get?_insert, if_pos rfl]
  constructor
  case serials => exact hold.serials
  case numbered => exact hold.numbered
  case detached => exact hold.detached
  case begun =>
    intro frame hframe
    rcases List.mem_cons.mp hframe with rfl | hframe
    · exact h.serial_lt (mem_held_of_get? hname)
    · exact hold.begun frame hframe
  case taken =>
    intro frame hframe
    rcases List.mem_cons.mp hframe with rfl | hframe
    · refine ⟨launch.dependency.start launch.slot, ?_⟩
      change (env.dependencies.insert launch.name _).get? launch.name = _
      rw [Table.get?_insert, if_pos rfl]
    · exact hold.taken frame hframe
  case owned =>
    intro frame hframe key dependency hkey hserial
    rcases List.mem_cons.mp hframe with rfl | hframe
    · exact hget key dependency hkey hserial
    · exact hold.owned frame hframe key dependency hkey hserial

theorem finish_registered {name : QualifiedName} {dependency : Dependency π}
    (h : env.dependencies.get? name = some dependency) {serial : Nat}
    (hserial : dependency.serial ≠ serial) (began : Nat) (slot : Option Int64)
    (result : Except Error Value) :
    env.finish name serial began slot result =
      { env with
        stack := env.stack.tail
        superseded := (env.superseded.map fun old =>
          if old.serial = serial then old.finish slot began result else old).filter
            Dependency.inFlight } := by
  unfold finish
  simp only [h, if_neg hserial]

theorem Identified.finish (h : env.Identified) {launch : Launch π}
    (hframe : env.stack.head? = some launch.frame) (result : Except Error Value) :
    (launch.finish env result).Identified := by
  obtain ⟨dependency, hname⟩ := h.taken launch.frame (List.mem_of_head? hframe)
  change env.dependencies.get? launch.name = some dependency at hname
  unfold Launch.finish
  by_cases hserial : dependency.serial = launch.dependency.serial
  · rw [← hserial, finish_eq hname]
    refine h.of_sublist ?_ (List.Sublist.refl _) h.detached rfl (List.tail_subset _)
    exact Table.mapValues_insert_of_eq hname
      (congrArg Prod.snd (dependency.signature_finish _ _ _))
  · rw [finish_registered hname hserial]
    refine h.of_sublist rfl ?_ ?_ rfl (List.tail_subset _)
    · have hsame : (env.superseded.map fun old =>
          if old.serial = launch.dependency.serial then
            old.finish launch.slot launch.dependency.epoch result
          else old).map Dependency.serial = env.superseded.map Dependency.serial := by
        rw [List.map_map]
        exact List.map_congr_left fun old _ => Event.serial_alter env old (.ended launch result)
      rw [← hsame]
      exact List.filter_sublist.map _
    · intro old hold
      exact (List.mem_filter.mp hold).2

theorem Identified.prepare (h : env.Identified) (request : Request π) :
    (request.prepare env).Identified := by
  rcases request.prepare_cases env with
    ⟨-, hdependencies, hsuperseded, hregistrations, hstack⟩ |
    ⟨name, registration, -, ⟨hname, hprepare⟩ | ⟨old, hname, hprepare⟩⟩
  · refine h.of_sublist (by rw [hdependencies]) (by rw [hsuperseded]) ?_ hregistrations ?_
    · rw [hsuperseded]
      exact h.detached
    · rw [hstack]
      exact List.Subset.refl _
  · rw [hprepare]
    exact h.enroll hname registration
  · rw [hprepare]
    exact h.supersede hname registration

/-- Every event keeps the held dependencies apart. -/
theorem Identified.apply (h : env.Identified) {event : Event π} (henabled : event.Enabled env) :
    (event.apply env).Identified := by
  cases event with
  | asked request =>
      dsimp only [Event.apply]
      rw [Request.effect_eq]
      split
      · exact h.prepare request
      · exact (h.prepare request).notify _
  | began launch => exact h.start henabled
  | ended launch result => exact h.finish henabled result

theorem map_eq_self {α : Type} {o : Option α} {f : α → α} (h : ∀ a, o = some a → f a = a) :
    o.map f = o := by
  cases o with
  | none => rfl
  | some a => exact congrArg some (h a rfl)

theorem Identified.get?_notify (h : env.Identified) (name key : QualifiedName) :
    (env.notify name).2.dependencies.get? key = (env.dependencies.get? key).map
      fun dependency =>
        if env.cascadesTo name dependency.serial then dependency.invalidate else dependency := by
  by_cases hreaches : env.Reaches name key
  · rw [notify_get?_of_reaches env hreaches]
    refine Option.map_congr fun dependency hkey => ?_
    rw [if_pos ((h.cascadesTo_iff_reaches hkey name).mpr hreaches)]
  · rw [notify_get?_of_not_reaches env hreaches, map_eq_self]
    intro dependency hkey
    rw [if_neg (mt (h.cascadesTo_iff_reaches hkey name).mp hreaches)]

theorem get?_prepare_of_ne {request : Request π} {key : QualifiedName}
    (hkey : request.installs? env ≠ some key) :
    (request.prepare env).dependencies.get? key = env.dependencies.get? key := by
  rcases request.prepare_cases env with
    ⟨-, hdependencies, -⟩ | ⟨name, registration, hinstalls, hprepare⟩
  · rw [hdependencies]
  · have hne : key ≠ name := by
      rintro rfl
      exact hkey hinstalls
    rcases hprepare with ⟨-, hprepare⟩ | ⟨old, -, hprepare⟩
    · rw [hprepare, (installs_enroll env name registration).get?, if_neg hne]
    · rw [hprepare, (installs_supersede env name old registration).get?, if_neg hne]

/-- A name that gets no new dependency keeps its own, as the event alters it. -/
theorem Identified.get?_apply (h : env.Identified) {event : Event π}
    (henabled : event.Enabled env) {key : QualifiedName} (hkey : event.installs? env ≠ some key) :
    (event.apply env).dependencies.get? key =
      (env.dependencies.get? key).map fun dependency => event.alter env dependency := by
  cases event with
  | asked request =>
      change (request.effect env).dependencies.get? key = _
      rw [Request.effect_eq]
      cases hcascade : request.cascade? env with
      | none =>
          dsimp only
          rw [get?_prepare_of_ne hkey, map_eq_self]
          intro dependency _
          simp [Event.alter, Event.visits, hcascade]
      | some name =>
          dsimp only
          rw [(h.prepare request).get?_notify, get?_prepare_of_ne hkey]
          simp only [Event.alter, Event.visits, hcascade, Option.any_some]
  | began launch =>
      change (env.start _ _ _).dependencies.get? key = _
      rw [get?_start]
      by_cases hname : key = launch.name
      · rw [if_pos hname, hname, henabled.registered, Option.map_some]
        simp only [Event.alter, if_true]
      · rw [if_neg hname, map_eq_self]
        intro dependency hdependency
        rw [Event.alter, if_neg fun hserial =>
          hname (h.eq_of_serial hdependency henabled.registered hserial)]
  | ended launch result =>
      obtain ⟨dependency, hname⟩ := h.taken launch.frame (List.mem_of_head? henabled)
      change env.dependencies.get? launch.name = some dependency at hname
      have hother : ∀ other, env.dependencies.get? key = some other → key ≠ launch.name →
          (Event.ended launch result).alter env other = other := by
        intro other hother hne
        rw [Event.alter, if_neg fun hserial : other.serial = launch.dependency.serial =>
          hne (h.owned launch.frame (List.mem_of_head? henabled) key other hother hserial)]
      change (env.finish _ _ _ _ _).dependencies.get? key = _
      by_cases hserial : dependency.serial = launch.dependency.serial
      · rw [← hserial, get?_finish hname]
        split
        · next heq =>
            rw [heq, hname, Option.map_some]
            simp only [Event.alter, hserial, if_true]
        · next hne =>
            rw [map_eq_self fun other hdependency => hother other hdependency hne]
      · rw [finish_registered hname hserial, map_eq_self]
        intro other hdependency
        by_cases hne : key = launch.name
        · rw [hne, hname, Option.some.injEq] at hdependency
          rw [Event.alter, ← hdependency, if_neg hserial]
        · exact hother other hdependency hne

theorem get?_prepare_of_installs {request : Request π} {key : QualifiedName}
    (hkey : request.installs? env = some key) :
    ∃ registration, (request.prepare env).dependencies.get? key =
      some (Dependency.ofRegistration env.registrations registration) := by
  rcases request.prepare_cases env with ⟨hnone, -⟩ | ⟨name, registration, hname, hprepare⟩
  · rw [hnone] at hkey
    cases hkey
  · obtain rfl : key = name := Option.some.inj (hkey.symm.trans hname)
    refine ⟨registration, ?_⟩
    rcases hprepare with ⟨-, hprepare⟩ | ⟨old, -, hprepare⟩
    · rw [hprepare, (installs_enroll env key registration).get?, if_pos rfl]
    · rw [hprepare, (installs_supersede env key old registration).get?, if_pos rfl]

/-- A new dependency has the next serial number and nothing in its slots. -/
theorem Identified.get?_apply_of_installs (h : env.Identified) {event : Event π}
    {key : QualifiedName} (hkey : event.installs? env = some key) :
    ∃ dependency, (event.apply env).dependencies.get? key = some dependency ∧
      dependency.serial = env.registrations ∧ dependency.slots = ∅ := by
  cases event with
  | began launch => cases hkey
  | ended launch result => cases hkey
  | asked request =>
      obtain ⟨registration, hnew⟩ := get?_prepare_of_installs hkey
      change ∃ dependency, (request.effect env).dependencies.get? key = some dependency ∧ _
      rw [Request.effect_eq]
      split
      · exact ⟨_, hnew, rfl, rfl⟩
      · rw [(h.prepare request).get?_notify, hnew, Option.map_some]
        refine ⟨_, rfl, ?_, ?_⟩
        · split <;> rfl
        · split
          · exact Dependency.slots_invalidate_of_empty rfl
          · rfl

theorem superseded_effect (env : Environment π) (request : Request π) :
    (request.effect env).superseded = (request.prepare env).superseded := by
  rw [Request.effect_eq]
  split
  · rfl
  · rw [notify_snd]

theorem mem_superseded_prepare_iff (env : Environment π) (request : Request π)
    (dependency : Dependency π) :
    dependency ∈ (request.prepare env).superseded ↔ dependency ∈ env.superseded ∨
      dependency.inFlight = true ∧ ∃ name, request.installs? env = some name ∧
        env.dependencies.get? name = some dependency := by
  rcases request.prepare_cases env with
    ⟨hinstalls, -, hsuperseded, -⟩ | ⟨name, registration, hinstalls, hprepare⟩
  · rw [hsuperseded, hinstalls]
    simp
  · rw [hinstalls]
    simp only [Option.some.injEq, exists_eq_left']
    rcases hprepare with ⟨hname, hprepare⟩ | ⟨old, hname, hprepare⟩
    · rw [hprepare, hname]
      simp [enroll]
    · rw [hprepare, hname, Option.some.injEq, supersede]
      dsimp only
      split
      · next hflight =>
          rw [List.mem_append, List.mem_singleton]
          constructor
          · rintro (hmem | rfl)
            · exact Or.inl hmem
            · exact Or.inr ⟨hflight, rfl⟩
          · rintro (hmem | ⟨-, rfl⟩)
            · exact Or.inl hmem
            · exact Or.inr rfl
      · next hflight =>
          refine (or_iff_left ?_).symm
          rintro ⟨hmem, rfl⟩
          exact hflight hmem

/-- No event alters a superseded dependency, except for the end of a recompute of such a one. -/
theorem Identified.alter_of_superseded (h : env.Identified) {event : Event π}
    (henabled : event.Enabled env)
    (hnamed : ∀ launch result, event = .ended launch result →
      ∃ current, env.dependencies.get? launch.name = some current ∧
        current.serial = launch.dependency.serial)
    {before : Dependency π} (hbefore : before ∈ env.superseded) :
    event.alter env before = before := by
  cases event with
  | asked request =>
      have hlater := (env.mem_superseded_prepare_iff request before).mpr (Or.inl hbefore)
      have hvisits : (Event.asked request).visits env before.serial = false := by
        rw [Event.visits]
        cases request.cascade? env with
        | none => rfl
        | some name => exact (h.prepare request).not_cascadesTo_superseded hlater name
      simp [Event.alter, hvisits]
  | began launch => exact if_neg (h.serial_ne_of_superseded henabled.registered hbefore).symm
  | ended launch result =>
      obtain ⟨current, hname, hserial⟩ := hnamed launch result rfl
      rw [Event.alter, ← hserial, if_neg (h.serial_ne_of_superseded hname hbefore).symm]

/-- A superseded dependency was so before, or has lost its name to a new one. In either case it is
in flight. -/
theorem Identified.mem_superseded_apply_iff (h : env.Identified) {event : Event π}
    (henabled : event.Enabled env) (dependency : Dependency π) :
    dependency ∈ (event.apply env).superseded ↔ dependency.inFlight = true ∧
      ((∃ before ∈ env.superseded, event.alter env before = dependency) ∨
        ∃ name, event.installs? env = some name ∧
          env.dependencies.get? name = some dependency) := by
  have hsame : (∀ before ∈ env.superseded, event.alter env before = before) →
      ((∃ before ∈ env.superseded, event.alter env before = dependency) ↔
        dependency ∈ env.superseded) := by
    intro hunaltered
    constructor
    · rintro ⟨before, hbefore, rfl⟩
      rwa [hunaltered before hbefore]
    · intro hmem
      exact ⟨dependency, hmem, hunaltered dependency hmem⟩
  cases event with
  | asked request =>
      change dependency ∈ (request.effect env).superseded ↔ _
      rw [hsame fun _ => h.alter_of_superseded henabled nofun, superseded_effect,
        mem_superseded_prepare_iff]
      constructor
      · rintro (hmem | ⟨hflight, hname⟩)
        · exact ⟨h.detached dependency hmem, Or.inl hmem⟩
        · exact ⟨hflight, Or.inr hname⟩
      · rintro ⟨hflight, hmem | hname⟩
        · exact Or.inl hmem
        · exact Or.inr ⟨hflight, hname⟩
  | began launch =>
      rw [hsame fun _ => h.alter_of_superseded henabled nofun]
      constructor
      · intro hmem
        exact ⟨h.detached dependency hmem, Or.inl hmem⟩
      · rintro ⟨-, hmem | ⟨name, hname, -⟩⟩
        · exact hmem
        · cases hname
  | ended launch result =>
      obtain ⟨current, hname⟩ := h.taken launch.frame (List.mem_of_head? henabled)
      change env.dependencies.get? launch.name = some current at hname
      change dependency ∈ (env.finish _ _ _ _ _).superseded ↔ _
      by_cases hserial : current.serial = launch.dependency.serial
      · rw [hsame fun _ => h.alter_of_superseded henabled ?_, ← hserial, finish_eq hname]
        · constructor
          · intro hmem
            exact ⟨h.detached dependency hmem, Or.inl hmem⟩
          · rintro ⟨-, hmem | ⟨name, hname, -⟩⟩
            · exact hmem
            · cases hname
        · rintro other _ ⟨⟩
          exact ⟨current, hname, hserial⟩
      · -- The recompute is one of a dependency that has lost its name.
        rw [finish_registered hname hserial, List.mem_filter, and_comm, List.mem_map]
        refine and_congr_right fun _ => ?_
        constructor
        · exact Or.inl
        · rintro (hmem | ⟨name, hname, -⟩)
          · exact hmem
          · cases hname

/-- The cascade of a registration does not visit the dependency whose name it takes. -/
theorem Identified.alter_of_installs (h : env.Identified) {event : Event π}
    {name : QualifiedName} {old : Dependency π} (hinstalls : event.installs? env = some name)
    (hname : env.dependencies.get? name = some old) : event.alter env old = old := by
  cases event with
  | began launch => cases hinstalls
  | ended launch result => cases hinstalls
  | asked request =>
      have hvisits : (Event.asked request).visits env old.serial = false := by
        rw [Event.visits]
        cases request.cascade? env with
        | none => rfl
        | some source =>
            rw [Option.any_some, Bool.eq_false_iff, ne_eq, cascadesTo_iff]
            rintro ⟨key, dependency, -, hkey, hserial⟩
            by_cases hsame : request.installs? env = some key
            · obtain ⟨registration, hnew⟩ := get?_prepare_of_installs hsame
              rw [hnew, Option.some.injEq] at hkey
              subst hkey
              have hlt := h.serial_lt (mem_held_of_get? hname)
              rw [← hserial] at hlt
              exact Nat.lt_irrefl _ hlt
            · rw [get?_prepare_of_ne hsame] at hkey
              exact hsame (h.eq_of_serial hkey hname hserial ▸ hinstalls)
      simp [Event.alter, hvisits]

/-- What is held after an event was held before it, or is new. -/
theorem Identified.held_apply (h : env.Identified) {event : Event π}
    (henabled : event.Enabled env) {dependency : Dependency π}
    (hmem : dependency ∈ (event.apply env).held) :
    (∃ before ∈ env.held, event.alter env before = dependency) ∨
      dependency.serial = env.registrations ∧ dependency.slots = ∅ := by
  rcases (mem_held_iff _ _).mp hmem with ⟨key, hkey⟩ | hsuperseded
  · by_cases hinstalls : event.installs? env = some key
    · obtain ⟨new, hnew, hserial, hslots⟩ := h.get?_apply_of_installs hinstalls
      obtain rfl : dependency = new := Option.some.inj (hkey.symm.trans hnew)
      exact Or.inr ⟨hserial, hslots⟩
    · rw [h.get?_apply henabled hinstalls, Option.map_eq_some_iff] at hkey
      obtain ⟨before, hbefore, heq⟩ := hkey
      exact Or.inl ⟨before, mem_held_of_get? hbefore, heq⟩
  · obtain ⟨-, ⟨before, hbefore, heq⟩ | ⟨name, hinstalls, hname⟩⟩ :=
      (h.mem_superseded_apply_iff henabled dependency).mp hsuperseded
    · exact Or.inl ⟨before, (env.mem_held_iff before).mpr (Or.inr hbefore), heq⟩
    · exact Or.inl ⟨dependency, mem_held_of_get? hname, h.alter_of_installs hinstalls hname⟩

/-- What an event alters stays held while it is in flight. -/
theorem Identified.mem_held_apply (h : env.Identified) {event : Event π}
    (henabled : event.Enabled env) {dependency : Dependency π} (hmem : dependency ∈ env.held)
    (hflight : (event.alter env dependency).inFlight = true) :
    event.alter env dependency ∈ (event.apply env).held := by
  rw [mem_held_iff, h.mem_superseded_apply_iff henabled]
  rcases (mem_held_iff _ _).mp hmem with ⟨key, hkey⟩ | hsuperseded
  · by_cases hinstalls : event.installs? env = some key
    · rw [h.alter_of_installs hinstalls hkey] at hflight ⊢
      exact Or.inr ⟨hflight, Or.inr ⟨key, hinstalls, hkey⟩⟩
    · refine Or.inl ⟨key, ?_⟩
      rw [h.get?_apply henabled hinstalls, hkey, Option.map_some]
  · exact Or.inr ⟨hflight, Or.inl ⟨dependency, hsuperseded, rfl⟩⟩

end Steps
end Environment
end Memograph
