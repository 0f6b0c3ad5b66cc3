import Memograph.Proofs.Memoization
import Memograph.Proofs.Steps

/-! The index of readers against the registrations of a session. Each registration that is taken
makes an end of the earlier one of its name, with all that it read, and comes behind the others.
What is left at any moment are the latest registrations, and the readers of a name are those that
have it among their reads, in the same order. A registration that is refused leaves no trace. -/

namespace Memograph

variable {π : Type}

/-! ### The latest entries -/

section Latest

variable {κ ν : Type} [DecidableEq κ]

/-- The last entry of each key, in the order of these entries. -/
def latest : List (κ × ν) → List (κ × ν)
  | [] => []
  | entry :: rest => if entry.1 ∈ rest.map Prod.fst then latest rest else entry :: latest rest

theorem latest_sublist (entries : List (κ × ν)) : List.Sublist (latest entries) entries := by
  induction entries with
  | nil => exact List.Sublist.refl []
  | cons entry rest ih =>
      rw [latest]
      split
      · exact ih.cons entry
      · exact ih.cons_cons entry

theorem nodup_latest (entries : List (κ × ν)) : ((latest entries).map Prod.fst).Nodup := by
  induction entries with
  | nil => exact List.nodup_nil
  | cons entry rest ih =>
      rw [latest]
      split
      · exact ih
      · next hlast =>
          rw [List.map_cons, List.nodup_cons]
          exact ⟨fun hmem => hlast (((latest_sublist rest).map Prod.fst).subset hmem), ih⟩

/-- A further entry takes the place of the one of its key, and comes last. -/
theorem latest_concat (entries : List (κ × ν)) (entry : κ × ν) :
    latest (entries ++ [entry]) =
      (latest entries).filter (fun other => decide (other.1 ≠ entry.1)) ++ [entry] := by
  induction entries with
  | nil => rfl
  | cons first rest ih =>
      have hkeys : first.1 ∈ (rest ++ [entry]).map Prod.fst ↔
          first.1 ∈ rest.map Prod.fst ∨ first.1 = entry.1 := by
        rw [List.map_append, List.mem_append, List.map_singleton, List.mem_singleton]
      rw [List.cons_append, latest, latest, ih]
      by_cases hlater : first.1 ∈ rest.map Prod.fst
      · rw [if_pos (hkeys.mpr (Or.inl hlater)), if_pos hlater]
      · rw [if_neg hlater]
        by_cases hsame : first.1 = entry.1
        · rw [if_pos (hkeys.mpr (Or.inr hsame)), List.filter_cons_of_neg (by simp [hsame])]
        · rw [if_neg (mt hkeys.mp (not_or.mpr ⟨hlater, hsame⟩)),
            List.filter_cons_of_pos (by simp [hsame]), List.cons_append]

theorem Table.find_concat (entries : List (κ × ν)) (key other : κ) (value : ν) :
    Table.find other (entries.filter (fun entry => decide (entry.1 ≠ key)) ++ [(key, value)]) =
      if other = key then some value else Table.find other entries := by
  induction entries with
  | nil => rfl
  | cons entry rest ih =>
      by_cases hkey : entry.1 = key
      · rw [List.filter_cons_of_neg (by simp [hkey]), ih, Table.find, hkey]
        split <;> rfl
      · rw [List.filter_cons_of_pos (by simp [hkey]), List.cons_append, Table.find, Table.find, ih]
        by_cases hother : other = entry.1
        · rw [if_pos hother, if_pos hother, if_neg (hother ▸ hkey)]
        · rw [if_neg hother, if_neg hother]

end Latest

/-! ### Registrations -/

/-- What a moment registers, and under which name, if it is not refused. -/
def Moment.registers? (env : Environment π) : Moment π → Option (QualifiedName × Registration π)
  | .happens (.asked (.register name registration)) =>
    (env.register name registration).1.toOption.map fun _ => (name, registration)
  | _ => none

namespace Environment

/-- What some moments register, oldest first. -/
def registered : Environment π → List (Moment π) → List (QualifiedName × Registration π)
  | _, [] => []
  | env, moment :: moments =>
    (moment.registers? env).toList ++ registered (moment.apply env) moments

/-- Whether an environment has exactly the latest of some registrations, and its index lists as
readers of each name those that read it, in their order. -/
structure Inverts (env : Environment π) (past : List (QualifiedName × Registration π)) : Prop where
  registrations : ∀ name,
    (env.dependencies.get? name).map Dependency.toRegistration = Table.find name (latest past)
  readers : ∀ name, env.readersOf name =
    ((latest past).filter fun entry => decide (name ∈ entry.2.reads)).map Prod.fst

namespace Inverts

variable {env after : Environment π} {past : List (QualifiedName × Registration π)}
  {name : QualifiedName} {registration : Registration π}

theorem same (h : env.Inverts past) (hsame : env.SameDependencies after) :
    after.Inverts past where
  registrations := by
    intro key
    have hsignature := congrArg (Option.map Prod.fst) (hsame.signature key)
    rw [Option.map_map, Option.map_map] at hsignature
    exact hsignature.trans (h.registrations key)
  readers := fun key => (hsame.readersOf key).trans (h.readers key)

/-- A reader of a name is registered with the name among its reads. -/
theorem mem_reads (h : env.Inverts past) {read : QualifiedName}
    (hreader : name ∈ env.readersOf read) :
    ∃ dependency, env.dependencies.get? name = some dependency ∧ read ∈ dependency.reads := by
  rw [h.readers] at hreader
  obtain ⟨⟨key, registration⟩, hentry, rfl⟩ := List.mem_map.mp hreader
  obtain ⟨hmem, hread⟩ := List.mem_filter.mp hentry
  have hname := h.registrations key
  rw [Table.find_of_mem (nodup_latest past) hmem] at hname
  obtain ⟨dependency, hdependency, rfl⟩ := Option.map_eq_some_iff.mp hname
  exact ⟨dependency, hdependency, of_decide_eq_true hread⟩

/-- A new registration takes the place of the one of its name in the index as well. -/
theorem installs (h : env.Inverts past) (hinstalls : env.Installs after name registration)
    (hreaders : ∀ read, after.readersOf read =
      (env.readersOf read).filter (fun reader => decide (reader ≠ name)) ++
        if read ∈ registration.reads then [name] else []) :
    after.Inverts (past ++ [(name, registration)]) where
  registrations := by
    intro key
    rw [hinstalls.get?, latest_concat, Table.find_concat, ← h.registrations]
    split <;> rfl
  readers := by
    intro read
    rw [hreaders, h.readers, latest_concat, List.filter_append, List.map_append, List.filter_map,
      List.filter_filter, List.filter_filter]
    congr 1
    · congr 2
      funext entry
      exact Bool.and_comm _ _
    · by_cases hread : read ∈ registration.reads <;> simp [hread]

theorem enroll (h : env.Inverts past) (hname : env.dependencies.get? name = none) :
    (env.enroll name registration).Inverts (past ++ [(name, registration)]) := by
  refine h.installs (installs_enroll env name registration) fun read => ?_
  have hfree : name ∉ env.readersOf read := by
    intro hreader
    obtain ⟨dependency, hdependency, -⟩ := h.mem_reads hreader
    rw [hname] at hdependency
    cases hdependency
  have hkept : (env.readersOf read).filter (fun reader => decide (reader ≠ name)) =
      env.readersOf read :=
    List.filter_eq_self.mpr fun reader hreader =>
      decide_eq_true fun heq => hfree (heq ▸ hreader)
  rw [hkept, readersOf, Environment.enroll, getD_addReads]
  by_cases hread : read ∈ registration.reads
  · rw [if_pos ⟨hread, hfree⟩, if_pos hread]
    rfl
  · rw [if_neg fun hboth => hread hboth.1, if_neg hread, List.append_nil]
    rfl

theorem supersede (h : env.Inverts past) {old : Dependency π}
    (hname : env.dependencies.get? name = some old) :
    (env.supersede name old registration).Inverts (past ++ [(name, registration)]) := by
  refine h.installs (installs_supersede env name old registration) fun read => ?_
  -- The old registration is a reader of no name that it does not read.
  have hdropped : ((dropReads env.readers name old.reads).get? read).getD [] =
      (env.readersOf read).filter (fun reader => decide (reader ≠ name)) := by
    rw [getD_dropReads]
    split
    · rfl
    · next hread =>
        refine (List.filter_eq_self.mpr fun reader hreader => decide_eq_true ?_).symm
        rintro rfl
        obtain ⟨dependency, hdependency, hmem⟩ := h.mem_reads hreader
        obtain rfl := Option.some.inj (hname.symm.trans hdependency)
        exact hread hmem
  have hfree : name ∉ (env.readersOf read).filter (fun reader => decide (reader ≠ name)) := by
    intro hmem
    exact of_decide_eq_true (List.mem_filter.mp hmem).2 rfl
  rw [readersOf, Environment.supersede, getD_addReads, hdropped]
  by_cases hread : read ∈ registration.reads
  · rw [if_pos ⟨hread, hfree⟩, if_pos hread]
  · rw [if_neg fun hboth => hread hboth.1, if_neg hread, List.append_nil]

end Inverts

/-! ### Moments -/

section Moments

variable {env after : Environment π} {past : List (QualifiedName × Registration π)}

/-- The end of a recompute leaves all registrations, that of its own dependency among them. -/
theorem sameDependencies_launchFinish (env : Environment π) (launch : Launch π)
    (result : Except Error Value) : env.SameDependencies (launch.finish env result) := by
  unfold Launch.finish
  cases hname : env.dependencies.get? launch.name with
  | none =>
      unfold finish
      simp only [hname]
      exact ⟨rfl, fun _ => rfl⟩
  | some dependency =>
      by_cases hserial : dependency.serial = launch.dependency.serial
      · rw [← hserial]
        exact sameDependencies_finish hname _ _ result
      · rw [finish_registered hname hserial]
        exact ⟨rfl, fun _ => rfl⟩

theorem register_refused {name : QualifiedName} {registration : Registration π} {cause : Error}
    (h : (env.register name registration).1 = .error cause) :
    cause = .redefinitionConflict name ∧ (env.register name registration).2 = env := by
  rcases register_cases env name registration with
    ⟨-, hregister⟩ | ⟨old, -, -, hregister⟩ | ⟨old, -, -, hregister⟩
  · rw [hregister] at h
    cases h
  · rw [hregister] at h ⊢
    cases h
    exact ⟨rfl, rfl⟩
  · rw [hregister] at h
    cases h

/-- A moment without a registration leaves all of them as they are. -/
theorem sameDependencies_moment {moment : Moment π} (hmoment : moment.registers? env = none)
    (henabled : ∀ event, moment = .happens event → event.Enabled env) :
    env.SameDependencies (moment.apply env) := by
  cases moment with
  | turn => exact ⟨rfl, fun _ => rfl⟩
  | happens event =>
      cases event with
      | began launch => exact sameDependencies_start (henabled _ rfl).registered launch.slot
      | ended launch result => exact sameDependencies_launchFinish env launch result
      | asked request =>
          cases request with
          | assign name value => exact env.sameDependencies_assign name value
          | store name value => exact env.sameDependencies_store name value
          | notify name => exact env.sameDependencies_notify name
          | register name registration =>
              change env.SameDependencies (env.register name registration).2
              cases hregister : (env.register name registration).1 with
              | ok _ => simp [Moment.registers?, hregister, Except.toOption] at hmoment
              | error cause =>
                  rw [(register_refused hregister).2]
                  exact .refl env
          | _ => exact ⟨rfl, fun _ => rfl⟩

theorem register_of_registers? {moment : Moment π} {name : QualifiedName}
    {registration : Registration π} (h : moment.registers? env = some (name, registration)) :
    moment = .happens (.asked (.register name registration)) ∧
      (env.register name registration).1 = .ok () := by
  unfold Moment.registers? at h
  split at h
  · next key offered =>
      obtain ⟨accepted, hok, heq⟩ := Option.map_eq_some_iff.mp h
      obtain ⟨rfl, rfl⟩ := Prod.mk.inj heq
      refine ⟨rfl, ?_⟩
      cases hregister : (env.register key offered).1 with
      | ok _ => rfl
      | error cause => simp [hregister, Except.toOption] at hok
  · cases h

/-- The index is exact after a moment if it was before. -/
theorem Inverts.apply (h : env.Inverts past) (moment : Moment π)
    (henabled : ∀ event, moment = .happens event → event.Enabled env) :
    (moment.apply env).Inverts (past ++ (moment.registers? env).toList) := by
  cases hmoment : moment.registers? env with
  | none =>
      rw [Option.toList_none, List.append_nil]
      exact h.same (sameDependencies_moment hmoment henabled)
  | some entry =>
      obtain ⟨name, registration⟩ := entry
      obtain ⟨rfl, hok⟩ := register_of_registers? hmoment
      rw [Option.toList_some]
      change (env.register name registration).2.Inverts _
      rcases register_cases env name registration with
        ⟨hname, hregister⟩ | ⟨old, -, -, hregister⟩ | ⟨old, hname, -, hregister⟩
      · rw [hregister]
        exact h.enroll hname
      · rw [hregister] at hok
        cases hok
      · rw [hregister]
        exact (h.supersede hname).same (sameDependencies_notify _ name)

theorem Course.inverts {moments : List (Moment π)} (h : Course env moments after)
    (henv : env.Inverts past) : after.Inverts (past ++ env.registered moments) := by
  induction h generalizing past with
  | nil env =>
      rw [registered, List.append_nil]
      exact henv
  | @turn env after moments _ ih =>
      have hturn := henv.apply .turn fun event heq => by cases heq
      rw [registered, ← List.append_assoc]
      exact ih hturn
  | @happens env after event moments henabled _ ih =>
      have hevent := henv.apply (.happens event) fun other heq => by
        cases heq
        exact henabled
      rw [registered, ← List.append_assoc]
      exact ih hevent

theorem inverts_initial (config : Config) (context : ContextPath) :
    (initial config context : Environment π).Inverts [] where
  registrations := fun _ => rfl
  readers := fun _ => rfl

end Moments

/-! ### Sessions -/

/-- What is registered after some registrations, and who is listed as a reader. -/
structure Mirrors (env : Environment π) (past : List (QualifiedName × Registration π)) : Prop
    extends env.Inverts past where
  nodup : ∀ read, (env.readersOf read).Nodup
  indexed : env.Indexed
  /-- A registration that is refused. -/
  refused : ∀ name registration cause, (env.register name registration).1 = .error cause →
    cause = .redefinitionConflict name ∧ (env.register name registration).2 = env

theorem Inverts.mirrors {env : Environment π} {past : List (QualifiedName × Registration π)}
    (h : env.Inverts past) : env.Mirrors past where
  toInverts := h
  nodup := by
    intro read
    rw [h.readers]
    exact (nodup_latest past).sublist (List.filter_sublist.map Prod.fst)
  indexed := by
    intro read reader
    refine ⟨h.mem_reads, ?_⟩
    rintro ⟨dependency, hreader, hread⟩
    have hfind := h.registrations reader
    rw [hreader, Option.map_some, eq_comm] at hfind
    rw [h.readers]
    exact List.mem_map.mpr
      ⟨_, List.mem_filter.mpr ⟨Table.mem_of_find hfind, decide_eq_true hread⟩, rfl⟩
  refused := fun _ _ _ => register_refused

/-- At every moment of a session the readers of a name are the dependencies that read it, in the
order in which they were last registered. A registration that is refused changes nothing, and
neither does a definition that cannot be compiled. -/
theorem Unfolds.readers_exact {meaning : Meaning π} {config : Config} {context : ContextPath}
    {moments : List (Moment π)} (h : (initial config context).Unfolds meaning moments) :
    ((initial config context).through moments).Mirrors
      ((initial config context).registered moments) ∧
    ∀ (env : Environment Procedure) (definition : Definition) (place : Option ContextPath) (cause),
      definition.compile (place.getD env.context) = .error cause → ∀ meaning depth slot,
        runWithin meaning depth (Step.dialogue slot (.define definition place)) env =
          some (.failed (.error cause), env) := by
  obtain ⟨last, hcourse⟩ := h.exists_course
  have hinverts := hcourse.inverts (inverts_initial config context)
  rw [List.nil_append, hcourse.eq_through] at hinverts
  refine ⟨hinverts.mirrors, fun env definition place cause hcompile meaning depth slot => ?_⟩
  rw [Step.runWithin_define, hcompile]

end Environment

/-- A variable that is registered anew, in another shape and with other reads that are its own name
among others, by the recompute of an item that reads it. -/
def Session.reshaping : List Step :=
  [.register (.written "b") .scalar [.written "x", .written "y"] [] ⟨none, none, none⟩,
    .register (.written "a") .itemwise [.written "b", .written "y"]
      [.register (.written "b") .itemwise [.written "y", .written "b"] [] ⟨none, none, none⟩]
      ⟨none, none, none⟩,
    .read (.written "a") (some (.position 0))]

/-- The variable now comes behind the one that reads it. -/
theorem Environment.Unfolds.readers_exact_reshaping :
    ∃ moments : List (Moment Procedure),
      (((initial ⟨.replace⟩ .root).registered moments).map fun entry =>
        (entry.1.localName, entry.2.shape)) =
          [("b", .scalar), ("a", .itemwise), ("b", .itemwise)] ∧
      ((initial ⟨.replace⟩ .root).through moments).readersOf ⟨.root, "x"⟩ = [] ∧
      ((initial ⟨.replace⟩ .root).through moments).readersOf ⟨.root, "y"⟩ =
        [⟨.root, "a"⟩, ⟨.root, "b"⟩] := by
  obtain ⟨hmirrors, -⟩ := Unfolds.readers_exact
    (Session.unfolds_momentsOf Session.reshaping (.initial ⟨.replace⟩ .root))
  refine ⟨Session.momentsOf Session.reshaping (.initial ⟨.replace⟩ .root), by decide +kernel,
    ?_, ?_⟩
  · rw [hmirrors.readers]
    decide +kernel
  · rw [hmirrors.readers]
    decide +kernel

end Memograph
