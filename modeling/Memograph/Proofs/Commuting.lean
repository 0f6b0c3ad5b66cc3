import Memograph.Proofs.Cycles
import Memograph.Proofs.Recalling
import Memograph.Proofs.Refinement

/-! Reads in any order. What a read answers depends on no other read before it. Of all the slots in
the workloads of some reads, those that have a value from scratch are run once, whichever read
comes first, and the others once for each read. So the order of the reads is seen neither in their
answers nor in what they leave behind. -/

namespace Memograph

variable {π : Type}

/-! ### Environments that look alike -/

namespace Dependency

variable {dependency dependency' : Dependency π}

/-- The slots of an itemwise dependency that have a value, in the order of the table. -/
def valued (dependency : Dependency π) : List (Int64 × Value) :=
  dependency.slots.entries.filterMap fun
    | (some index, slot) => slot.status.value?.map fun value => (index, value)
    | _ => none

theorem mem_valued_iff (dependency : Dependency π) (index : Int64) (value : Value) :
    (index, value) ∈ dependency.valued ↔ dependency.status (some index) = .valid value := by
  have hvalue : ∀ slot : Slot, slot.status.value? = some value ↔ slot.status = .valid value := by
    intro slot
    cases slot.status <;> simp [Status.value?]
  unfold valued status slotAt
  rw [List.mem_filterMap]
  constructor
  · rintro ⟨⟨_ | position, slot⟩, hmem, heq⟩
    · cases heq
    · obtain ⟨found, hfound, hpair⟩ := Option.map_eq_some_iff.mp heq
      cases hpair
      rw [(Table.get?_eq_some_iff _ _ _).mpr hmem]
      exact (hvalue slot).mp hfound
  · intro hvalid
    cases hslot : dependency.slots.get? (some index) with
    | none =>
        rw [hslot] at hvalid
        cases hvalid
    | some slot =>
        rw [hslot] at hvalid
        refine ⟨(some index, slot), (Table.get?_eq_some_iff _ _ _).mp hslot, ?_⟩
        exact Option.map_eq_some_iff.mpr ⟨value, (hvalue slot).mpr hvalid, rfl⟩

theorem nodup_valued (dependency : Dependency π) : dependency.valued.Nodup := by
  have hkeys : dependency.slots.entries.Pairwise fun entry entry' => entry.1 ≠ entry'.1 :=
    List.pairwise_map.mp dependency.slots.distinct
  have hvalued : dependency.valued.Pairwise fun entry entry' => entry.1 ≠ entry'.1 := by
    refine List.Pairwise.filterMap _ ?_ hkeys
    rintro ⟨_ | index, slot⟩ ⟨_ | index', slot'⟩ hne entry hentry entry' hentry'
    · cases hentry
    · cases hentry
    · cases hentry'
    · obtain ⟨value, -, rfl⟩ := Option.map_eq_some_iff.mp hentry
      obtain ⟨value', -, rfl⟩ := Option.map_eq_some_iff.mp hentry'
      exact fun heq => hne (congrArg some heq)
  exact hvalued.imp fun hne heq => hne (congrArg Prod.fst heq)

/-- The slots that have a value are listed in ascending order, whatever order they came in. -/
theorem validSlots_eq (h : ∀ index, dependency.status index = dependency'.status index) :
    dependency.validSlots = dependency'.validSlots := by
  have hperm : dependency.valued.Perm dependency'.valued := by
    rw [List.perm_ext_iff_of_nodup dependency.nodup_valued dependency'.nodup_valued]
    rintro ⟨index, value⟩
    rw [mem_valued_iff, mem_valued_iff, h]
  have hsorted : ∀ l : List (Int64 × Value),
      (l.mergeSort fun a b => decide (a.1 ≤ b.1)).Pairwise fun a b => decide (a.1 ≤ b.1) = true :=
    List.pairwise_mergeSort
      (fun a b c hab hbc => decide_eq_true
        (Int64.le_trans (of_decide_eq_true hab) (of_decide_eq_true hbc)))
      fun a b => by simpa using Int64.le_total a.1 b.1
  refine List.Perm.eq_of_pairwise (fun a b ha hb hab hba => ?_) (hsorted _) (hsorted _)
    (((List.mergeSort_perm _ _).trans hperm).trans (List.mergeSort_perm _ _).symm)
  obtain ⟨index, value⟩ := a
  obtain ⟨index', value'⟩ := b
  obtain rfl : index = index' :=
    Int64.le_antisymm (of_decide_eq_true hab) (of_decide_eq_true hba)
  have hvalue := (mem_valued_iff _ _ _).mp ((List.mergeSort_perm _ _).mem_iff.mp ha)
  have hvalue' := (mem_valued_iff _ _ _).mp ((List.mergeSort_perm _ _).mem_iff.mp hb)
  rw [h, hvalue', Status.valid.injEq] at hvalue
  rw [hvalue]

theorem view_eq (hblank : dependency.blank = dependency'.blank)
    (hcount : dependency.recomputes = dependency'.recomputes)
    (hslots : ∀ index, dependency.slotAt index = dependency'.slotAt index) (name : QualifiedName) :
    dependency.view name = dependency'.view name := by
  have hstatus : ∀ index, dependency.status index = dependency'.status index := fun index =>
    congrArg Slot.status (hslots index)
  have hshape : dependency.shape = dependency'.shape :=
    (congrArg (fun dependency : Dependency π => dependency.shape) hblank :)
  unfold view
  rw [hshape, hcount, hstatus, validSlots_eq hstatus]

end Dependency

namespace Environment

/-- Whether two environments differ at most in what was noted in them and in the order in which the
slots of a dependency came in. -/
structure Alike (env other : Environment π) : Prop where
  rest : { env with dependencies := other.dependencies, journal := other.journal } = other
  blank : env.dependencies.mapValues Dependency.blank =
    other.dependencies.mapValues Dependency.blank
  count : ∀ name, env.recomputesOf name = other.recomputesOf name
  slots : ∀ entry, env.slotOf entry = other.slotOf entry

/-- Environments that look alike look the same from outside. -/
theorem Alike.items {env other : Environment π} (h : env.Alike other) :
    env.items = other.items := by
  have hitems : ∀ env : Environment π, env.items = env.dependencies.keys.filterMap fun name =>
      (env.dependencies.get? name).map fun dependency => dependency.view name := by
    intro env
    rw [Environment.items, Table.keys, List.filterMap_map, ← List.filterMap_eq_map]
    apply List.filterMap_congr
    rintro ⟨name, dependency⟩ hmem
    simp [(Table.get?_eq_some_iff _ _ _).mpr hmem]
  have hkeys : env.dependencies.keys = other.dependencies.keys := by
    rw [← Table.keys_mapValues Dependency.blank, h.blank, Table.keys_mapValues]
  rw [hitems, hitems, hkeys]
  apply List.filterMap_congr
  intro name _
  have hblank := congrArg (Table.get? · name) h.blank
  have hcount := h.count name
  have hslots := fun index => h.slots (name, index)
  unfold recomputesOf at hcount
  unfold slotOf at hslots
  simp only [Table.get?_mapValues] at hblank
  cases hname : env.dependencies.get? name with
  | none =>
      rw [hname, Option.map_none, eq_comm, Option.map_eq_none_iff] at hblank
      rw [hblank]
  | some dependency =>
      rw [hname, Option.map_some, eq_comm, Option.map_eq_some_iff] at hblank
      obtain ⟨dependency', hname', heq⟩ := hblank
      simp only [hname, hname'] at hcount hslots
      rw [hname', Option.map_some, Option.map_some,
        Dependency.view_eq heq.symm hcount hslots name]

/-- Runs of the same slots, each as often, leave what looks alike. -/
theorem Worked.alike {recalled : Meaning π} {env after after' : Environment π}
    {done done' : List Entry} (h : env.Worked recalled after done)
    (h' : env.Worked recalled after' done') (hperm : done.Perm done') : after.Alike after' := by
  constructor
  case rest =>
    have hrest := h.rest.trans h'.rest.symm
    exact (congrArg (fun e : Environment π => { e with
      dependencies := after'.dependencies
      journal := after'.journal }) hrest :)
  case blank => exact h.blank.trans h'.blank.symm
  case count =>
    intro name
    rw [h.count, h'.count, (hperm.map Prod.fst).count_eq]
  case slots =>
    intro entry
    by_cases hentry : entry ∈ done
    · have hentry' := hperm.mem_iff.mp hentry
      by_cases hyields : ∃ fuel, env.ledger.Yields recalled fuel entry
      · obtain ⟨fuel, value, hgives⟩ := hyields
        rw [h.gave entry hentry fuel value hgives, h'.gave entry hentry' fuel value hgives]
      · have hnone := not_exists.mp hyields
        rw [h.failed entry hentry hnone, h'.failed entry hentry' hnone]
    · rw [h.other entry hentry, h'.other entry (mt hperm.mem_iff.mpr hentry)]

end Environment

/-! ### How often a slot is run -/

/-- The workload of a read with nothing else in progress. -/
def Ledger.work (meaning : Meaning π) (ledger : Ledger π) (read : Entry) : List Entry :=
  ledger.workWithin meaning ledger.limit [] read.1 read.2

namespace Environment

/-- Whether each slot was run as often as some reads ask for. One that has a value from scratch is
run once, if it has no value yet and is in the workload of any of the reads; one that has none is
run for each read that has it in its workload. -/
structure Tallies (recalled : Meaning π) (env : Environment π) (reads done : List Entry) :
    Prop where
  kept : ∀ entry, env.HasValue entry → done.count entry = 0
  gave : ∀ entry fuel, ¬env.HasValue entry → env.ledger.Yields recalled fuel entry →
    done.count entry = min 1 (reads.countP fun read => entry ∈ env.ledger.work recalled read)
  failed : ∀ entry, (∀ fuel, ¬env.ledger.Yields recalled fuel entry) →
    done.count entry = reads.countP fun read => entry ∈ env.ledger.work recalled read

section Tallying

variable {meaning recalled : Meaning π} {env middle : Environment π}
  {reads reads' done done' first : List Entry} {read : Entry}

theorem tallies_nil (recalled : Meaning π) (env : Environment π) : env.Tallies recalled [] [] :=
  ⟨fun _ _ => List.count_nil, fun _ _ _ _ => by simp, fun _ _ => by simp⟩

/-- The order of the reads does not count. -/
theorem Tallies.perm (h : env.Tallies recalled reads done) (h' : env.Tallies recalled reads' done')
    (hperm : reads.Perm reads') : done.Perm done' := by
  rw [List.perm_iff_count]
  intro entry
  by_cases hvalue : env.HasValue entry
  · rw [h.kept entry hvalue, h'.kept entry hvalue]
  · by_cases hyields : ∃ fuel, env.ledger.Yields recalled fuel entry
    · obtain ⟨fuel, hfuel⟩ := hyields
      rw [h.gave entry fuel hvalue hfuel, h'.gave entry fuel hvalue hfuel, hperm.countP_eq]
    · have hnone := not_exists.mp hyields
      rw [h.failed entry hnone, h'.failed entry hnone, hperm.countP_eq]

theorem Completes.count_eq {answer : Except Error Value} {work : List Entry}
    (h : env.Completes meaning recalled middle answer work first) {entry : Entry}
    (hvalue : ¬env.HasValue entry) : first.count entry = if entry ∈ work then 1 else 0 := by
  have hmem : entry ∈ first ↔ entry ∈ work := by
    rw [h.mem_iff]
    exact and_iff_left hvalue
  rw [h.nodup.count, if_congr hmem rfl rfl]

/-- Reads that follow another one run what it has left to them. -/
theorem Completes.tallies {answer : Except Error Value} (henv : env.Warranted recalled)
    (h : env.Completes meaning recalled middle answer (env.ledger.work recalled read) first)
    (h' : middle.Tallies recalled reads done) :
    env.Tallies recalled (read :: reads) (first ++ done) := by
  have hledger := h.worked.ledger
  constructor
  case kept =>
    intro entry hvalue
    have hfirst : entry ∉ first := fun hmem => ((h.mem_iff entry).mp hmem).2 hvalue
    rw [List.count_append, List.count_eq_zero_of_not_mem hfirst, h'.kept entry (h.hasValue hvalue)]
  case gave =>
    intro entry fuel hvalue hyields
    rw [List.count_append, h.count_eq hvalue, List.countP_cons]
    by_cases hwork : entry ∈ env.ledger.work recalled read
    · -- The first read gives the slot its value, and nobody runs it again.
      have hfirst := (h.mem_iff entry).mpr ⟨hwork, hvalue⟩
      rw [h'.kept entry ((h.worked.hasValue_iff hfirst).mpr ⟨fuel, hyields⟩)]
      simp [hwork]
    · -- The first read passes the slot by, so it is left to the others.
      have hfirst : entry ∉ first := fun hmem => hwork ((h.mem_iff entry).mp hmem).1
      have hlater := mt (h.worked.hasValue_of_not_mem hfirst).mp hvalue
      rw [h'.gave entry fuel hlater (hledger.symm ▸ hyields), hledger]
      simp [hwork]
  case failed =>
    intro entry hnone
    have hvalue : ¬env.HasValue entry := by
      rintro ⟨value, hvalid⟩
      obtain ⟨fuel, hgives⟩ := henv entry.1 entry.2 value hvalid
      exact hnone fuel ⟨value, hgives⟩
    rw [List.count_append, h.count_eq hvalue, h'.failed entry (hledger.symm ▸ hnone), hledger,
      List.countP_cons, Nat.add_comm]
    simp

end Tallying

/-! ### Reads at top level -/

section TopLevel

variable {meaning recalled : Meaning π} {env after : Environment π}

theorem Backed.clear (h : env.Backed meaning recalled) (journal : List Answer) :
    { env with journal }.Backed meaning recalled where
  regular := ⟨h.regular.disciplined, h.regular.indexed⟩
  quiet := h.quiet
  balanced := ⟨h.balanced.running, h.balanced.nodup, h.balanced.fits⟩
  recalls := h.recalls
  warranted := h.warranted
  thorough := h.thorough

theorem Completes.of_clear {answer : Except Error Value} {work done : List Entry}
    {journal : List Answer}
    (h : { env with journal }.Completes meaning recalled after answer work done) :
    env.Completes meaning recalled after answer work done where
  worked :=
    { h.worked with
      rest := (congrArg (fun e : Environment π => { e with journal := env.journal })
        h.worked.rest :) }
  backed := h.backed
  nodup := h.nodup
  mem_iff := h.mem_iff
  idle := h.idle
  kept := h.kept

theorem Backed.run (h : env.Backed meaning recalled) (hidle : env.underway = []) (read : Entry)
    {answer : Except Error Value} (hanswer : env.ledger.read recalled read.1 read.2 = some answer) :
    ∃ after, env.run meaning (.request (.read read.1 read.2)) = some (answer, after) ∧
      env.Completes meaning recalled after answer (env.ledger.work recalled read)
        (started (history meaning env.depthLimit (.request (.read read.1 read.2)) env)) := by
  have hawaits := awaits_of_idle hidle recalled (.request (.read read.1 read.2))
  have hscratch : env.ledger.readWithin recalled env.depthLimit env.underway read.1 read.2 =
      some answer := by
    rw [hidle, ← ledger_limit]
    exact hanswer
  obtain ⟨after, hread, hcompletes⟩ := h.read env.depthLimit read.1 read.2 hawaits hscratch
  rw [hidle, ← ledger_limit] at hcompletes
  have hrespond : respond (nested meaning env.depthLimit) meaning (.read read.1 read.2) env =
      some (answer, after) := hread
  refine ⟨after, run_read hread, ?_⟩
  rw [history, Dialogue.request, events_ask hrespond, events, List.append_nil, ← ledger_limit]
  exact hcompletes

end TopLevel

end Environment

/-! ### Procedures that recall values -/

/-- The variable that a procedure computes, if it is a compiled body. -/
def Procedure.owner : Procedure → Option QualifiedName
  | .compiled resolution _ => resolution.owner
  | .script _ _ => none

/-- Whether a registration has a body that computes its variable and only reads. -/
structure Registration.Pure (name : QualifiedName) (registration : Registration Procedure) :
    Prop where
  owner : registration.procedure.owner = some name
  reading : ∀ slot, (registration.procedure.dialogue slot).Reading registration.reads

theorem Definition.compile_pure {definition : Definition} {context : ContextPath}
    {compiled : Compiled} (husage : definition.usage = Usage.ofExpr definition.body)
    (hlocal : definition.localOnly = true) (h : definition.compile context = .ok compiled) :
    compiled.registration.Pure compiled.name :=
  ⟨compile_owner h, reading_of_localOnly husage hlocal h⟩

namespace Environment

/-- The procedures as they are, but for those of slots that have a value: these give the value. -/
def recalling (env : Environment Procedure) : Meaning Procedure := fun procedure slot =>
  match procedure.owner.bind fun name => (env.statusOf name slot).value? with
  | some value => .done (.ok value)
  | none => procedure.dialogue slot

variable {env : Environment Procedure} {name : QualifiedName} {procedure : Procedure}

theorem recalling_of_valid (howner : procedure.owner = some name) {slot : Option Int64}
    {value : Value} (h : env.statusOf name slot = .valid value) :
    env.recalling procedure slot = .done (.ok value) := by
  rw [recalling, howner, Option.bind_some, h]
  rfl

theorem recalling_of_not_hasValue (howner : procedure.owner = some name) {slot : Option Int64}
    (h : ¬env.HasValue (name, slot)) : env.recalling procedure slot = procedure.dialogue slot := by
  have hnone : (env.statusOf name slot).value? = none := by
    cases hstatus : env.statusOf name slot with
    | valid value => exact absurd ⟨value, hstatus⟩ h
    | _ => rfl
  rw [recalling, howner, Option.bind_some, hnone]

/-- Between two steps the values are what procedures give that recall them. -/
theorem Orderly.backed (h : env.Orderly) (hpure : env.AllRegistered Registration.Pure) :
    env.Backed Procedure.dialogue env.recalling := by
  constructor
  case regular => exact h.regular
  case balanced => exact h.idle.balanced
  case quiet =>
    intro name registration hdefined slot
    obtain ⟨dependency, hname, rfl⟩ := ledger_get?_eq_some hdefined
    obtain ⟨howner, hreading⟩ := hpure name dependency hname
    by_cases hvalue : env.HasValue (name, slot)
    · obtain ⟨value, hvalid⟩ := hvalue
      rw [recalling_of_valid howner hvalid]
      exact .done _
    · rw [recalling_of_not_hasValue howner hvalue]
      exact hreading slot
  case recalls =>
    intro name dependency slot hname hvalue
    exact recalling_of_not_hasValue (hpure name dependency hname).owner hvalue
  case warranted =>
    intro name slot value hvalid
    obtain ⟨dependency, hname⟩ : ∃ dependency, env.dependencies.get? name = some dependency :=
      get?_isSome_of_statusOf (by rw [hvalid]; exact nofun)
    refine ⟨0, _, ledger_get?_of_get? hname, ?_⟩
    rw [recalling_of_valid (hpure name dependency hname).owner hvalid]
    rfl
  case thorough =>
    -- A procedure that recalls its value reads nothing.
    rintro name dependency slot hname ⟨value, hvalid⟩ fuel result - entry hentry
    rw [recalling_of_valid (hpure name dependency hname).owner hvalid] at hentry
    cases hentry

end Environment

/-! ### Sessions -/

/-- Whether a step is one of a session of compiled definitions that assign only locals. -/
def Step.localOnly (step : Step) : Bool :=
  step.compiledOnly && match step with
    | .define definition _ => definition.localOnly
    | _ => true

theorem Step.compiledOnly_of_localOnly {step : Step} (h : step.localOnly = true) :
    step.compiledOnly = true :=
  (Bool.and_eq_true_iff.mp h).1

namespace Session

open Environment

/-- A name to read in a session, and an index into it. -/
abbrev Query := NameRef × Option IndexRef

/-- What a query reads in a context. -/
def Query.entry (context : ContextPath) (query : Query) : Entry :=
  (query.1.resolve context, query.2.map (Exchange.position 0))

/-- Reads one after the other. -/
def readEach (queries : List Query) : List Step := queries.map fun query => .read query.1 query.2

variable {env : Environment Procedure} {recalled : Meaning Procedure}

/-- A read as a step starts the recomputes of the read. -/
theorem started_read (query : Query) (meaning : Meaning Procedure) (depth : Nat)
    (env : Environment Procedure) :
    started (history meaning depth (Step.dialogue 0 (.read query.1 query.2)) env) =
      started (history meaning depth (.request
        (.read (query.entry env.context).1 (query.entry env.context).2)) env) := by
  have hquery : (Step.read query.1 query.2).query env.context =
      some (.request (.read (query.entry env.context).1 (query.entry env.context).2) :
        Exchange (Except Error Value)) := rfl
  obtain ⟨looks, hlooks, hhistory⟩ := Step.history_query meaning env hquery depth
  have hnone : started looks = [] := by
    rcases hlooks with rfl | rfl <;> rfl
  rw [hhistory, started_append, hnone, List.nil_append]

theorem take_read (henv : env.Backed Procedure.dialogue recalled) (hidle : env.underway = [])
    (query : Query) {answer : Except Error Value}
    (hanswer : env.ledger.read recalled (query.entry env.context).1 (query.entry env.context).2 =
      some answer) :
    ∃ report after, take (.read query.1 query.2) env = some (report, after) ∧
      report.answer = .ofResult answer ∧
      env.Completes Procedure.dialogue recalled after answer
        (env.ledger.work recalled (query.entry env.context))
        (started (history Procedure.dialogue env.cleared.depthLimit
          (Step.dialogue 0 (.read query.1 query.2)) env.cleared)) := by
  obtain ⟨after, hrun, hcompletes⟩ :=
    (henv.clear []).run hidle (query.entry env.context) hanswer
  refine ⟨⟨.ofResult answer, after.journal, after.items⟩, after, take_of_run ?_, rfl, ?_⟩
  · rw [Step.run_query Procedure.dialogue _ rfl]
    exact Option.map_eq_some_iff.mpr ⟨_, hrun, rfl⟩
  · rw [started_read]
    exact hcompletes.of_clear

/-- Each read is answered as it would be alone, and all of them together run what they have to. -/
theorem takeAll_readEach (henv : env.Backed Procedure.dialogue recalled) (hidle : env.underway = [])
    {answer : Query → Except Error Value}
    (hanswer : ∀ query : Query, env.ledger.read recalled (query.entry env.context).1
      (query.entry env.context).2 = some (answer query)) (queries : List Query) :
    ∃ reports after done, takeAll (readEach queries) env = some (reports, after) ∧
      reports.map StepReport.answer = queries.map (fun query => .ofResult (answer query)) ∧
      env.Worked recalled after done ∧
      env.Tallies recalled (queries.map (Query.entry env.context)) done := by
  induction queries generalizing env with
  | nil => exact ⟨[], env, [], rfl, rfl, .refl env, tallies_nil recalled env⟩
  | cons query queries ih =>
      obtain ⟨report, middle, htake, hreport, hfirst⟩ :=
        take_read henv hidle query (hanswer query)
      have hcontext : middle.context = env.context :=
        (congrArg Environment.context hfirst.worked.rest :)
      rw [← hfirst.worked.ledger, ← hcontext] at hanswer
      obtain ⟨reports, after, done, hall, hreports, hworked, htallies⟩ :=
        ih hfirst.backed (hfirst.worked.underway.trans hidle) hanswer
      rw [hcontext] at htallies
      refine ⟨report :: reports, after, _ ++ done, takeAll_cons htake hall, ?_,
        hfirst.worked.trans hworked, hfirst.tallies henv.warranted htallies⟩
      rw [List.map_cons, List.map_cons, hreport, hreports]

/-- A session of compiled definitions that assign only locals has reports, and has bodies registered
that only read. -/
theorem exists_pure {session : Session} (h : ∀ step ∈ session.steps, step.localOnly = true) :
    ∃ reports env, session.run = some (reports, env) ∧ env.Orderly ∧
      env.AllRegistered Registration.Pure := by
  obtain ⟨reports, env, hrun, hcandid, hregistered⟩ :=
    exists_takeAll (candid_initial session.config session.context) fun step hstep =>
      Step.compiledOnly_of_localOnly (h step hstep)
  refine ⟨reports, env, hrun, hcandid.toOrderly, ?_⟩
  refine hregistered _ nofun fun definition context place compiled hmem hcompile => ?_
  obtain ⟨husage, hlocal⟩ := Bool.and_eq_true_iff.mp (h _ hmem)
  exact Definition.compile_pure (beq_iff_eq.mp husage) hlocal hcompile

/-- Such a session leaves values that its procedures give when they recall them. -/
theorem exists_backed {session : Session} (h : ∀ step ∈ session.steps, step.localOnly = true) :
    ∃ reports env, session.run = some (reports, env) ∧
      env.Backed Procedure.dialogue env.recalling ∧ env.underway = [] := by
  obtain ⟨reports, env, hrun, horderly, hpure⟩ := exists_pure h
  exact ⟨reports, env, hrun, horderly.backed hpure, horderly.idle.underway⟩

/-- Reads commute. In a session of compiled definitions that assign only locals, every read has one
answer, whatever is read before it, and the same reads in another order leave the same values, the
same counts and the same items. -/
theorem reads_commute {session : Session} (h : ∀ step ∈ session.steps, step.localOnly = true) :
    ∃ reports env, session.run = some (reports, env) ∧
      ∃ answer : Query → Answer, ∀ queries queries' : List Query, queries.Perm queries' →
        ∃ reports after reports' after',
          takeAll (readEach queries) env = some (reports, after) ∧
          takeAll (readEach queries') env = some (reports', after') ∧
          reports.map StepReport.answer = queries.map answer ∧
          reports'.map StepReport.answer = queries'.map answer ∧
          after.Alike after' ∧ after.items = after'.items := by
  obtain ⟨reports, env, hrun, hbacked, hidle⟩ := exists_backed h
  choose answer hanswer using fun query : Query =>
    Ledger.exists_read hbacked.quiet (query.entry env.context).1 (query.entry env.context).2
  refine ⟨reports, env, hrun, fun query => .ofResult (answer query),
    fun queries queries' hperm => ?_⟩
  obtain ⟨first, after, done, hall, hanswers, hworked, htallies⟩ :=
    takeAll_readEach hbacked hidle hanswer queries
  obtain ⟨second, after', done', hall', hanswers', hworked', htallies'⟩ :=
    takeAll_readEach hbacked hidle hanswer queries'
  have halike : after.Alike after' :=
    hworked.alike hworked' (htallies.perm htallies' (hperm.map _))
  exact ⟨first, after, second, after', hall, hall', hanswers, hanswers', halike, halike.items⟩

/-- A variable whose value was kept when a variable that it reads was defined, items that fail after
they have read others, and two variables that read each other. -/
def overlapping : Session where
  config := .standard
  context := .root
  steps :=
    [.assign (.written "y") (.int 2),
      .define (.ofBody "v" (some "i")
        (.sequence [.assign "z" (.name "y"), .binary .multiply (.name "z") (.name "i")]) "") none,
      .define (.ofBody "x" none
        (.binary .add (.item (.name "v") (.constant (.int 3))) (.name "y")) "") none,
      .read (.written "x") none, .define (.ofBody "y" none (.constant (.int 10)) "") none,
      .define (.ofBody "w" (some "i")
        (.binary .add (.item (.name "v") (.name "i")) (.name "u")) "") none,
      .define (.ofBody "a" none (.binary .add (.name "x") (.name "b")) "") none,
      .define (.ofBody "b" none (.binary .add (.name "a") (.name "y")) "") none]

/-- Reads of the two, of items and of a variable that is not there. -/
def overlappingQueries : List Query :=
  [(.written "a", none), (.written "w", some (.position 2)), (.written "x", none),
    (.written "v", some (.position 2)), (.written "w", some (.position 2)),
    (.written "b", none), (.written "u", none), (.written "v", none)]

/-- Whatever comes first, what fails runs once for each read and everything else only once. -/
theorem reads_commute_overlapping :
    ∃ reports env, overlapping.run = some (reports, env) ∧
      ∃ (answer : Query → Answer) (reports reports' : List StepReport)
        (after after' : Environment Procedure),
        takeAll (readEach overlappingQueries) env = some (reports, after) ∧
        takeAll (readEach overlappingQueries.reverse) env = some (reports', after') ∧
        reports.map StepReport.answer = overlappingQueries.map answer ∧
        reports'.map StepReport.answer = overlappingQueries.reverse.map answer ∧
        after.Alike after' ∧ after.items = after'.items ∧
        ["a", "b", "v", "w", "x", "y"].map (fun name => after.recomputesOf ⟨.root, name⟩) =
          [2, 2, 2, 2, 1, 1] := by
  have hlocal : ∀ step ∈ overlapping.steps, step.localOnly = true := by
    rw [← List.all_eq_true]
    decide +kernel
  have hcomputed : (overlapping.run.bind fun outcome =>
      (takeAll (readEach overlappingQueries) outcome.2).map fun outcome =>
        ["a", "b", "v", "w", "x", "y"].map fun name => outcome.2.recomputesOf ⟨.root, name⟩) =
      some [2, 2, 2, 2, 1, 1] := by
    decide +kernel
  obtain ⟨reports, env, hrun, answer, hcommute⟩ := reads_commute hlocal
  obtain ⟨first, after, second, after', hall, hall', hanswers, hanswers', halike, hitems⟩ :=
    hcommute overlappingQueries overlappingQueries.reverse (List.reverse_perm _).symm
  rw [hrun, Option.bind_some, hall, Option.map_some, Option.some.injEq] at hcomputed
  exact ⟨reports, env, hrun, answer, first, second, after, after', hall, hall', hanswers, hanswers',
    halike, hitems, hcomputed⟩

end Session
end Memograph
