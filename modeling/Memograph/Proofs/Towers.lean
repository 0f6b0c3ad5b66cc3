import Mathlib.Tactic.MkIffOfInductiveProp
import Memograph.Proofs.Overtaking
import Memograph.Proofs.Sessions

/-! Towers of variables. Each variable of a tower is the sixteenth power of the one below it, and
the lowest one assigns the variable that the tower stands on. Nothing in the tower ever keeps a
value, since the assignment reaches all of it. So each power reads the variable below sixteen times,
and to read the sixteenth power of the sixteenth takes `16 ^ 16 = 2 ^ 64` assignments. A variable
that does so is overtaken by as many cascades as the low sixty-four bits of an epoch cannot tell from
none, and keeps a value that it has from before the first of them. -/

namespace Memograph

namespace Environment

variable {π : Type} {env middle after : Environment π} {source name : QualifiedName} {value : Value}
  {count : Nat}

/-! ### Sweeps -/

/-- Whether an environment comes about from another by some cascades from a variable, which has a
value in the end: whatever the variable reaches is counted up by the cascades, and is left without
a value. -/
structure Sweeps (env : Environment π) (source : QualifiedName) (value : Value) (count : Nat)
    (after : Environment π) : Prop where
  same : env.SameDependencies after
  stored : after.stored.get? source = some value
  running : ∀ name slot,
    after.statusOf name slot = .evaluating ↔ env.statusOf name slot = .evaluating
  emptied : ∀ name slot, env.Reaches source name → env.statusOf name slot ≠ .evaluating →
    after.statusOf name slot = .uninitialized
  epoch : ∀ name dependency, env.dependencies.get? name = some dependency →
    env.Reaches source name → after.epochOf name = env.epochOf name + count

theorem sweeps_assign (env : Environment π) (source : QualifiedName) (value : Value) :
    env.Sweeps source value 1 (env.assign source value).2 where
  same := env.sameDependencies_assign source value
  stored := by rw [assign, notify_snd, store, Table.get?_insert, if_pos rfl]
  running := (env.store source value).evaluating_notify_iff source
  emptied := by
    intro name slot hreaches hstatus
    change ((env.store source value).notify source).2.statusOf name slot = _
    rw [statusOf_notify_of_reaches (env.store source value) hreaches]
    split
    · next hrunning => exact absurd hrunning hstatus
    · rfl
  epoch := fun _ _ hname hreaches =>
    epochOf_notify_of_reaches (env.store source value) hreaches hname

namespace Sweeps

theorem trans {count' : Nat} (h : env.Sweeps source value count middle)
    (h' : middle.Sweeps source value count' after) :
    env.Sweeps source value (count + count') after where
  same := h.same.trans h'.same
  stored := h'.stored
  running := fun name slot => (h'.running name slot).trans (h.running name slot)
  emptied := fun name slot hreaches hstatus =>
    h'.emptied name slot (h.same.reaches ▸ hreaches) (mt (h.running name slot).mp hstatus)
  epoch := by
    intro name dependency hname hreaches
    obtain ⟨later, hlater, -⟩ := h.same.get?_eq_some hname
    rw [h'.epoch name later hlater (h.same.reaches ▸ hreaches), h.epoch name dependency hname
      hreaches, Nat.add_assoc]

/-- What has no value stays so if it is swept. -/
theorem uninitialized (h : env.Sweeps source value count after) {name : QualifiedName}
    {slot : Option Int64} (hreaches : env.Reaches source name)
    (hstatus : env.statusOf name slot = .uninitialized) :
    after.statusOf name slot = .uninitialized := by
  refine h.emptied name slot hreaches ?_
  rw [hstatus]
  exact nofun

/-- A sweep counts also from before what leaves the epochs as they are. -/
theorem of_settled (h : middle.Sweeps source value count after)
    (hsame : env.SameDependencies middle)
    (hrunning : ∀ name slot,
      middle.statusOf name slot = .evaluating ↔ env.statusOf name slot = .evaluating)
    (hepoch : ∀ name, middle.epochOf name = env.epochOf name) :
    env.Sweeps source value count after where
  same := hsame.trans h.same
  stored := h.stored
  running := fun name slot => (h.running name slot).trans (hrunning name slot)
  emptied := fun name slot hreaches hstatus =>
    h.emptied name slot (hsame.reaches ▸ hreaches) (mt (hrunning name slot).mp hstatus)
  epoch := by
    intro name dependency hname hreaches
    obtain ⟨later, hlater, -⟩ := hsame.get?_eq_some hname
    rw [h.epoch name later hlater (hsame.reaches ▸ hreaches), hepoch]

section Recompute

variable {dependency : Dependency π} {slot : Option Int64} {result : Except Error Value}

/-- A recompute that is swept ends in the epoch that the cascades have counted up to. -/
theorem get?_of_recompute (hname : env.dependencies.get? name = some dependency)
    (hreaches : env.Reaches source name)
    (h : (env.start name dependency slot).Sweeps source value count middle) :
    ∃ later, middle.dependencies.get? name = some later ∧ later.serial = dependency.serial ∧
      later.toRegistration = dependency.toRegistration ∧
      later.epoch = dependency.epoch + count := by
  obtain ⟨started, hstarted, -⟩ := (sameDependencies_start hname slot).get?_eq_some hname
  obtain ⟨later, hlater, heq, hserial⟩ :=
    ((sameDependencies_start hname slot).trans h.same).get?_eq_some hname
  have hepoch := h.epoch name started hstarted hreaches
  rw [epochOf_start hname, epochOf_of_get? hname, epochOf_of_get? hlater] at hepoch
  exact ⟨later, hlater, hserial, heq, hepoch⟩

/-- A recompute of what is swept meanwhile leaves no value, unless the epochs have come round. -/
theorem recompute (hname : env.dependencies.get? name = some dependency)
    (hreaches : env.Reaches source name) (hstatus : dependency.status slot = .uninitialized)
    (h : (env.start name dependency slot).Sweeps source value count middle)
    (hcount : count % UInt64.size ≠ 0) :
    env.Sweeps source value count
      (middle.finish name dependency.serial dependency.epoch slot result) := by
  obtain ⟨later, hlater, hserial, -, hepoch⟩ := get?_of_recompute hname hreaches h
  have hstart := sameDependencies_start hname slot
  have hstale : Dependency.sameEpoch later.epoch dependency.epoch = false := by
    rw [hepoch, Bool.eq_false_iff, ne_eq, sameEpoch_add_iff]
    exact hcount
  rw [← hserial]
  constructor
  case same =>
    exact (hstart.trans h.same).trans (sameDependencies_finish hlater slot _ result)
  case stored =>
    rw [finish_eq hlater]
    exact h.stored
  case running =>
    intro key index
    rw [evaluating_finish_iff hlater, h.running, evaluating_start_iff hname]
    by_cases hslot : key = name ∧ index = slot
    · simp [hslot, statusOf_of_get? hname, hstatus]
    · simp [hslot]
  case emptied =>
    intro key index hkey hrunning
    rw [statusOf_finish hlater]
    by_cases hslot : key = name ∧ index = slot
    · rw [if_pos hslot]
      cases result with
      | error cause => rfl
      | ok whole =>
          dsimp only
          rw [hstale]
          rfl
    · rw [if_neg hslot]
      refine h.emptied key index hkey ?_
      rwa [statusOf_start hname, if_neg hslot]
  case epoch =>
    intro key first hkey hpath
    obtain ⟨started, hstarted, -⟩ := hstart.get?_eq_some hkey
    rw [epochOf_finish hlater, h.epoch key started hstarted hpath, epochOf_start hname]

/-- Where the epochs have come round, the value is kept. -/
theorem statusOf_recompute (hname : env.dependencies.get? name = some dependency)
    (hreaches : env.Reaches source name)
    (h : (env.start name dependency slot).Sweeps source value count middle)
    (hcount : count % UInt64.size = 0) (whole : Value) :
    (middle.finish name dependency.serial dependency.epoch slot (.ok whole)).statusOf name slot =
      .valid whole := by
  obtain ⟨later, hlater, hserial, -, hepoch⟩ := get?_of_recompute hname hreaches h
  rw [← hserial, statusOf_finish hlater, if_pos ⟨rfl, rfl⟩, hepoch]
  dsimp only
  rw [if_pos ((sameEpoch_add_iff _ _).mpr hcount)]

end Recompute

end Sweeps

/-! ### Runs of bodies -/

section Bodies

variable {α β : Type} {run : Runner π (Except Error Value)} {meaning : Meaning π}
  {resolution : Resolution} {locals : Table String Value} {written : String}

theorem converse_bind_body {first : Body π α} {f : α → Body π β} {locals' : Table String Value}
    {result : α} (h : converse (respond run meaning) (first locals) env =
      some (.ok (result, locals'), middle)) :
    converse (respond run meaning) ((first >>= f) locals) env =
      converse (respond run meaning) (f result locals') middle := by
  change converse _ (Dialogue.bind (first locals)
    (ExceptT.bindCont fun state : α × Table String Value => f state.1 state.2)) env = _
  rw [converse_bind, h]
  rfl

theorem converse_name (hname : resolution.resolve written = .global name)
    (hread : env.read run meaning name none = some (.ok value, after))
    (locals : Table String Value) :
    converse (respond run meaning) (Expr.evaluate resolution (.name written) locals) env =
      some (.ok (value, locals), after) := by
  rw [Expr.evaluate, Body.read, hname]
  exact converse_read hread _

theorem converse_binary {op : BinaryOp} {left right : Expr} {first second : Value}
    (hright : converse (respond run meaning) (Expr.evaluate resolution right locals) env =
      some (.ok (second, locals), middle))
    (hleft : converse (respond run meaning) (Expr.evaluate resolution left locals) middle =
      some (.ok (first, locals), after))
    (hop : op.apply first second = .ok value) :
    converse (respond run meaning) (Expr.evaluate resolution (.binary op left right) locals) env =
      some (.ok (value, locals), after) := by
  rw [Expr.evaluate, converse_bind_body hright, converse_bind_body hleft, hop]
  rfl

/-- Giving a variable a value which is not that of the definition is one assignment. -/
theorem converse_assign (hname : resolution.resolve written = .global name)
    (howner : resolution.owner ≠ some name) :
    converse (respond run meaning)
      (Expr.evaluate resolution (.assign written (.constant value)) locals) env =
        some (.ok (value, locals), (env.assign name value).2) := by
  have hvalue : converse (respond run meaning)
      (Expr.evaluate resolution (.constant value) locals) env =
        some (.ok (value, locals), env) := by
    rw [Expr.evaluate]
    rfl
  rw [Expr.evaluate, converse_bind_body hvalue, Body.assign, hname]
  dsimp only
  rw [if_neg howner]
  rfl

theorem converse_sequence {first second : Expr} {ignored : Value}
    (hfirst : converse (respond run meaning) (Expr.evaluate resolution first locals) env =
      some (.ok (ignored, locals), middle))
    (hsecond : converse (respond run meaning) (Expr.evaluate resolution second locals) middle =
      some (.ok (value, locals), after)) :
    converse (respond run meaning) (Expr.evaluate resolution (.sequence [first, second]) locals)
      env = some (.ok (value, locals), after) := by
  rw [Expr.evaluate, Expr.evaluateSequence, converse_bind_body hfirst, Expr.evaluateSequence,
    converse_bind_body hsecond, Expr.evaluateSequence]
  rfl

theorem converse_dialogue {body : Expr} {index : Option Int64} {locals' : Table String Value}
    (h : converse (respond run meaning)
      (Expr.evaluate resolution body (Expr.initialLocals resolution index)) env =
        some (.ok (value, locals'), after)) :
    converse (respond run meaning) (body.dialogue resolution index) env =
      some (.ok value, after) := by
  change converse _ (Dialogue.bind (Expr.evaluate resolution body _)
    (ExceptT.bindCont fun state : Value × Table String Value => pure state.1)) env = _
  rw [converse_bind, h]
  rfl

theorem readStored_of_get? (h : env.stored.get? name = some value) :
    env.readStored name none = .ok value := by
  simp only [readStored, h]

/-- A scalar dependency without a value has that of its procedure. -/
theorem read_of_scalar {dependency : Dependency π} {result : Except Error Value}
    (hname : env.dependencies.get? name = some dependency) (hshape : dependency.shape = .scalar)
    (hstatus : dependency.status none = .uninitialized)
    (hrun : run (meaning dependency.procedure none) (env.start name dependency none) =
      some (result, middle)) :
    env.read run meaning name none =
      some (result, middle.finish name dependency.serial dependency.epoch none result) := by
  have hslot : dependency.shape.slot? none = some none := by
    rw [hshape]
    rfl
  rw [read_of_slot? hname hslot, compute_of_uninitialized hstatus hrun, hshape]
  cases result <;> rfl

end Bodies

end Environment

/-! ### Towers -/

/-- Whether an expression multiplies a variable with itself, `2 ^ n` times over. -/
def Expr.isPower (resolution : Resolution) (name : QualifiedName) : Nat → Expr → Bool
  | 0, .name written => resolution.resolve written == .global name
  | n + 1, .binary .multiply left right =>
    isPower resolution name n left && isPower resolution name n right
  | _, _ => false

namespace Procedure

/-- Whether a procedure is the value of a variable. -/
def copies (name : QualifiedName) : Procedure → Bool
  | .compiled resolution (.name written) => resolution.resolve written == .global name
  | _ => false

/-- Whether a procedure assigns one to a variable of another name, and is then its value. -/
def marks (ground : QualifiedName) : Procedure → Bool
  | .compiled resolution
      (.sequence [.assign target (.constant (.scalar (.int n))), .name written]) =>
    n == 1 && resolution.resolve target == .global ground && resolution.owner != some ground &&
      resolution.resolve written == .global ground
  | _ => false

/-- Whether a procedure is the sixteenth power of a variable. -/
def powers (below : QualifiedName) : Procedure → Bool
  | .compiled resolution body => body.isPower resolution below 4
  | _ => false

/-- Whether a procedure adds a variable to the sixteenth power of another. -/
def tops (below aside : QualifiedName) : Procedure → Bool
  | .compiled resolution (.binary .add power (.name written)) =>
    power.isPower resolution below 4 && resolution.resolve written == .global aside
  | _ => false

theorem exists_of_powers {procedure : Procedure} {below : QualifiedName}
    (h : procedure.powers below = true) : ∃ resolution body,
      procedure = .compiled resolution body ∧ body.isPower resolution below 4 = true := by
  unfold powers at h
  split at h
  · exact ⟨_, _, rfl, h⟩
  · cases h

end Procedure

namespace Environment

/-- Whether a scalar dependency has a name and a procedure that passes a test. -/
def Computes (env : Environment Procedure) (name : QualifiedName) (test : Procedure → Bool) :
    Prop :=
  ∃ dependency, env.dependencies.get? name = some dependency ∧ dependency.shape = .scalar ∧
    test dependency.procedure = true

instance (env : Environment Procedure) (name : QualifiedName) (test : Procedure → Bool) :
    Decidable (env.Computes name test) :=
  decidable_of_iff ((env.dependencies.get? name).any fun dependency =>
      decide (dependency.shape = .scalar) && test dependency.procedure)
    (by simp only [Option.any_eq_true, Bool.and_eq_true, decide_eq_true_eq, Computes])

/-- Whether some variables, one above the other, each have the sixteenth power of the one below for
their value, the lowest one assigns the ground, and a cascade from there reaches all of them. -/
structure Tower (env : Environment Procedure) (ground : QualifiedName)
    (rung : Nat → QualifiedName) (height : Nat) : Prop where
  plain : env.dependencies.get? ground = none
  reached : ∀ k < height, env.Reaches ground (rung k)
  apart : ∀ k < height, ∀ j < k, rung j ≠ rung k
  lowest : 0 < height → env.Computes (rung 0) (Procedure.marks ground)
  upper : ∀ k, k + 1 < height → env.Computes (rung (k + 1)) (Procedure.powers (rung k))

section Towers

variable {env middle after : Environment Procedure} {ground name aside top : QualifiedName}
  {rung : Nat → QualifiedName} {height depth : Nat} {value : Value} {test : Procedure → Bool}
  {procedure : Procedure} {run : Runner Procedure (Except Error Value)}

theorem converse_copies (h : procedure.copies name = true)
    (hread : env.read run Procedure.dialogue name none = some (.ok value, after)) :
    converse (respond run Procedure.dialogue) (procedure.dialogue none) env =
      some (.ok value, after) := by
  unfold Procedure.copies at h
  split at h
  · exact converse_dialogue (converse_name (beq_iff_eq.mp h) hread _)
  · cases h

theorem converse_marks (h : procedure.marks ground = true)
    (hground : env.dependencies.get? ground = none) :
    converse (respond run Procedure.dialogue) (procedure.dialogue none) env =
      some (.ok (.int 1), (env.assign ground (.int 1)).2) := by
  unfold Procedure.marks at h
  split at h
  · simp only [Bool.and_eq_true, beq_iff_eq, bne_iff_ne] at h
    obtain ⟨⟨⟨rfl, htarget⟩, howner⟩, hwritten⟩ := h
    have hswept := sweeps_assign env ground (.int 1)
    have hnone := (hswept.same.get?_eq_none_iff ground).mpr hground
    have hread : (env.assign ground (.int 1)).2.read run Procedure.dialogue ground none =
        some (.ok (.int 1), (env.assign ground (.int 1)).2) := by
      rw [read_of_unregistered hnone, readStored_of_get? hswept.stored]
    exact converse_dialogue (converse_sequence (converse_assign htarget howner)
      (converse_name hwritten hread _))
  · cases h

theorem SameDependencies.computes (h : env.SameDependencies after)
    (hname : env.Computes name test) : after.Computes name test := by
  obtain ⟨dependency, hname, hshape, htest⟩ := hname
  obtain ⟨later, hlater, heq, -⟩ := h.get?_eq_some hname
  refine ⟨later, hlater, (congrArg Registration.shape heq).trans hshape, ?_⟩
  rwa [show later.procedure = dependency.procedure from congrArg Registration.procedure heq]

theorem Tower.of_same (h : env.Tower ground rung height) (hsame : env.SameDependencies after) :
    after.Tower ground rung height where
  plain := (hsame.get?_eq_none_iff ground).mpr h.plain
  reached := fun k hk => hsame.reaches ▸ h.reached k hk
  apart := h.apart
  lowest := fun hheight => hsame.computes (h.lowest hheight)
  upper := fun k hk => hsame.computes (h.upper k hk)

/-- A variable that is swept while it is recomputed is swept as a whole. -/
theorem Computes.read_of_sweeps (h : env.Computes name test) (hreaches : env.Reaches ground name)
    (hstatus : env.statusOf name none = .uninitialized) {count : Nat}
    (hcount : count % UInt64.size ≠ 0)
    (hrun : ∀ dependency, env.dependencies.get? name = some dependency →
      test dependency.procedure = true → ∃ middle,
        converse (respond (nested Procedure.dialogue depth) Procedure.dialogue)
          (dependency.procedure.dialogue none) (env.start name dependency none) =
            some (.ok value, middle) ∧
        (env.start name dependency none).Sweeps ground (.int 1) count middle) :
    ∃ after, env.read (nested Procedure.dialogue (depth + 1)) Procedure.dialogue name none =
      some (.ok value, after) ∧ env.Sweeps ground (.int 1) count after := by
  obtain ⟨dependency, hname, hshape, htest⟩ := h
  obtain ⟨middle, hconverse, hswept⟩ := hrun dependency hname htest
  rw [statusOf_of_get? hname] at hstatus
  rw [← runWithin_eq_converse] at hconverse
  exact ⟨_, read_of_scalar hname hshape hstatus hconverse,
    hswept.recompute hname hreaches hstatus hcount⟩

/-- Whether nothing up to a rung of a tower has a value. -/
def Bare (env : Environment Procedure) (rung : Nat → QualifiedName) (k : Nat) : Prop :=
  ∀ j ≤ k, env.statusOf (rung j) none = .uninitialized

theorem Sweeps.bare {k count : Nat} (h : env.Sweeps ground value count after)
    (htower : env.Tower ground rung height) (hk : k < height) (hbare : env.Bare rung k) :
    after.Bare rung k :=
  fun j hj => h.uninitialized (htower.reached j (Nat.lt_of_le_of_lt hj hk)) (hbare j hj)

/-- A power of a rung is swept as often as the reads of the rung that it makes. -/
theorem Tower.evaluate_power {k count : Nat} (h : env.Tower ground rung height) (hk : k < height)
    (hbare : env.Bare rung k)
    (hread : ∀ {env : Environment Procedure}, env.Tower ground rung height → env.Bare rung k →
      ∃ after, env.read run Procedure.dialogue (rung k) none = some (.ok (.int 1), after) ∧
        env.Sweeps ground (.int 1) count after)
    {resolution : Resolution} {expr : Expr} {n : Nat}
    (hexpr : expr.isPower resolution (rung k) n = true) (locals : Table String Value) :
    ∃ after, converse (respond run Procedure.dialogue) (expr.evaluate resolution locals) env =
        some (.ok (.int 1, locals), after) ∧
      env.Sweeps ground (.int 1) (2 ^ n * count) after := by
  induction n generalizing env expr with
  | zero =>
      obtain ⟨after, hafter, hswept⟩ := hread h hbare
      rw [Nat.pow_zero, Nat.one_mul]
      unfold Expr.isPower at hexpr
      split at hexpr
      · exact ⟨after, converse_name (beq_iff_eq.mp hexpr) hafter locals, hswept⟩
      · next heq => cases heq
      · cases hexpr
  | succ n ih =>
      unfold Expr.isPower at hexpr
      split at hexpr
      · next heq => cases heq
      · next left right heq =>
          cases heq
          rw [Bool.and_eq_true] at hexpr
          obtain ⟨middle, hright, hswept⟩ := ih h hbare hexpr.2
          obtain ⟨after, hleft, hswept'⟩ :=
            ih (h.of_same hswept.same) (hswept.bare h hk hbare) hexpr.1
          have hproduct : BinaryOp.multiply.apply (.int 1) (.int 1) = .ok (.int 1) := rfl
          refine ⟨after, converse_binary hright hleft hproduct, ?_⟩
          rw [Nat.pow_succ, Nat.mul_two, Nat.add_mul]
          exact hswept.trans hswept'
      · cases hexpr

theorem pow_mod_size_ne_zero {k : Nat} (hk : k < 16) : 16 ^ k % UInt64.size ≠ 0 := by
  have hlt : 16 ^ k < UInt64.size := Nat.pow_lt_pow_right (by decide) hk
  rw [Nat.mod_eq_of_lt hlt]
  exact (Nat.pow_pos (by decide)).ne'

/-- Reading the `k`-th rung of a tower without values has `16 ^ k` cascades, and leaves it without
values. -/
theorem Tower.read (h : env.Tower ground rung height) (hheight : height ≤ 16) {k : Nat}
    (hk : k < height) (hdepth : k < depth) (hbare : env.Bare rung k) :
    ∃ after, env.read (nested Procedure.dialogue depth) Procedure.dialogue (rung k) none =
      some (.ok (.int 1), after) ∧ env.Sweeps ground (.int 1) (16 ^ k) after := by
  induction k generalizing env depth with
  | zero =>
      obtain ⟨depth, rfl⟩ := Nat.exists_eq_add_one_of_ne_zero hdepth.ne'
      refine (h.lowest hk).read_of_sweeps (h.reached 0 hk) (hbare 0 (Nat.le_refl 0)) (by decide)
        fun dependency hname htest => ⟨_, converse_marks htest ?_, sweeps_assign _ ground (.int 1)⟩
      exact (h.of_same (sameDependencies_start hname none)).plain
  | succ k ih =>
      obtain ⟨depth, rfl⟩ := Nat.exists_eq_add_one_of_ne_zero (Nat.ne_zero_of_lt hdepth)
      refine (h.upper k hk).read_of_sweeps (h.reached _ hk) (hbare _ (Nat.le_refl _))
        (pow_mod_size_ne_zero (by omega)) fun dependency hname htest => ?_
      have hlower : k < height := Nat.lt_of_succ_lt hk
      have hdeep : k < depth := Nat.lt_of_succ_lt_succ hdepth
      have hstart : (env.start (rung (k + 1)) dependency none).Bare rung k := by
        intro j hj
        rw [statusOf_start hname, if_neg fun heq => h.apart _ hk j (by omega) heq.1]
        exact hbare j (by omega)
      obtain ⟨resolution, body, hprocedure, hpower⟩ := Procedure.exists_of_powers htest
      obtain ⟨after, hconverse, hswept⟩ :=
        (h.of_same (sameDependencies_start hname none)).evaluate_power hlower hstart
          (fun htower hbare => ih htower hlower hdeep hbare) hpower _
      refine ⟨after, ?_, ?_⟩
      · rw [hprocedure]
        exact converse_dialogue hconverse
      · rwa [Nat.pow_succ, Nat.mul_comm]

/-- Whether a variable adds another one, which reads the ground, to the sixteenth power of the
highest of sixteen rungs. -/
structure Spire (env : Environment Procedure) (ground : QualifiedName)
    (rung : Nat → QualifiedName) (aside top : QualifiedName) : Prop
    extends env.Tower ground rung 16 where
  copied : env.Computes aside (Procedure.copies ground)
  summed : env.Computes top (Procedure.tops (rung 15) aside)
  aside_reached : env.Reaches ground aside
  top_reached : env.Reaches ground top
  aside_apart : ∀ k < 16, rung k ≠ aside
  top_apart : ∀ k < 16, rung k ≠ top
  aside_ne : aside ≠ top

theorem Spire.of_same (h : env.Spire ground rung aside top) (hsame : env.SameDependencies after) :
    after.Spire ground rung aside top where
  toTower := h.toTower.of_same hsame
  copied := hsame.computes h.copied
  summed := hsame.computes h.summed
  aside_reached := hsame.reaches ▸ h.aside_reached
  top_reached := hsame.reaches ▸ h.top_reached
  aside_apart := h.aside_apart
  top_apart := h.top_apart
  aside_ne := h.aside_ne

/-- The variable aside takes its value from the ground, and nothing else changes. -/
theorem Spire.read_aside (h : env.Spire ground rung aside top)
    (hstatus : env.statusOf aside none = .uninitialized)
    (hground : env.stored.get? ground = some value) (hdepth : 0 < depth) :
    ∃ after, env.read (nested Procedure.dialogue depth) Procedure.dialogue aside none =
        some (.ok value, after) ∧
      env.SameDependencies after ∧ (∀ name, after.epochOf name = env.epochOf name) ∧
      ∀ name slot, after.statusOf name slot =
        if name = aside ∧ slot = none then .valid value else env.statusOf name slot := by
  obtain ⟨depth, rfl⟩ := Nat.exists_eq_add_one_of_ne_zero hdepth.ne'
  obtain ⟨dependency, hname, hshape, htest⟩ := h.copied
  have hstart := sameDependencies_start hname none
  obtain ⟨started, hstarted, -, hserial⟩ := hstart.get?_eq_some hname
  have hepoch : started.epoch = dependency.epoch := by
    rw [← epochOf_of_get? hstarted, epochOf_start hname, epochOf_of_get? hname]
  have hread : (env.start aside dependency none).read (nested Procedure.dialogue depth)
      Procedure.dialogue ground none = some (.ok value, env.start aside dependency none) := by
    have hthere : (env.start aside dependency none).stored.get? ground = some value := hground
    rw [read_of_unregistered (h.of_same hstart).plain, readStored_of_get? hthere]
  have hrun := converse_copies htest hread
  rw [← runWithin_eq_converse] at hrun
  rw [statusOf_of_get? hname] at hstatus
  refine ⟨_, read_of_scalar hname hshape hstatus hrun, ?_, fun key => ?_, fun key slot => ?_⟩
  · rw [← hserial]
    exact hstart.trans (sameDependencies_finish hstarted none _ _)
  · rw [← hserial, epochOf_finish hstarted, epochOf_start hname]
  · rw [← hserial, statusOf_finish hstarted, statusOf_start hname, hepoch]
    split
    · simp [Dependency.sameEpoch]
    · rfl

/-- The procedure of the top takes the ground as it is before `2 ^ 64` cascades from there. -/
theorem Spire.converse_top (h : env.Spire ground rung aside top) (hbare : env.Bare rung 15)
    (haside : env.statusOf aside none = .uninitialized) {n : Int64}
    (hground : env.stored.get? ground = some (.int n)) (hdepth : 15 < depth)
    (hsum : (Value.int 1).add (.int n) = .ok value)
    (htest : procedure.tops (rung 15) aside = true) :
    ∃ after, converse (respond (nested Procedure.dialogue depth) Procedure.dialogue)
        (procedure.dialogue none) env = some (.ok value, after) ∧
      env.Sweeps ground (.int 1) UInt64.size after := by
  obtain ⟨middle, hread, hsame, hepoch, hstatus⟩ :=
    h.read_aside haside hground (Nat.zero_lt_of_lt hdepth)
  have htower := h.toTower.of_same hsame
  have hthere : middle.Bare rung 15 := by
    intro k hk
    rw [hstatus, if_neg fun heq => h.aside_apart k (Nat.lt_succ_of_le hk) heq.1]
    exact hbare k hk
  unfold Procedure.tops at htest
  split at htest
  · rw [Bool.and_eq_true, beq_iff_eq] at htest
    obtain ⟨after, hpower, hswept⟩ := htower.evaluate_power (Nat.lt_succ_self 15) hthere
      (fun htower hbare => htower.read (Nat.le_refl 16) (Nat.lt_succ_self 15) hdepth hbare)
      htest.1 _
    refine ⟨after, converse_dialogue (converse_binary (converse_name htest.2 hread _) hpower hsum),
      ?_⟩
    refine hswept.of_settled hsame (fun name slot => ?_) hepoch
    rw [hstatus]
    split
    · next heq => simp [heq, haside]
    · rfl
  · cases htest

/-- Over a ground of zero, the top keeps the value that it has from there, though the ground has
become one meanwhile, and the procedure of the top would give another value then. -/
theorem Spire.read_top (h : env.Spire ground rung aside top) (hbare : env.Bare rung 15)
    (haside : env.statusOf aside none = .uninitialized)
    (htop : env.statusOf top none = .uninitialized)
    (hground : env.stored.get? ground = some (.int 0)) (hdepth : 16 < depth) :
    ∃ after, env.read (nested Procedure.dialogue depth) Procedure.dialogue top none =
        some (.ok (.int 1), after) ∧
      env.SameDependencies after ∧ after.statusOf top none = .valid (.int 1) ∧
      after.statusOf aside none = .uninitialized ∧
      ∀ (procedure : Procedure) (deep : Nat), procedure.tops (rung 15) aside = true → 15 < deep →
        ∃ last, converse (respond (nested Procedure.dialogue deep) Procedure.dialogue)
          (procedure.dialogue none) after = some (.ok (.int 2), last) := by
  obtain ⟨depth, rfl⟩ := Nat.exists_eq_add_one_of_ne_zero (Nat.ne_zero_of_lt hdepth)
  have hdeep : 15 < depth := Nat.lt_of_succ_lt_succ hdepth
  obtain ⟨dependency, hname, hshape, htest⟩ := h.summed
  have hstart := sameDependencies_start hname none
  have hstarted := h.of_same hstart
  have hother : ∀ {name}, name ≠ top → env.statusOf name none = .uninitialized →
      (env.start top dependency none).statusOf name none = .uninitialized := by
    intro name hne hstatus
    rwa [statusOf_start hname, if_neg fun heq => hne heq.1]
  have hrungs : (env.start top dependency none).Bare rung 15 := fun k hk =>
    hother (h.top_apart k (Nat.lt_succ_of_le hk)) (hbare k hk)
  have hsum : (Value.int 1).add (.int 0) = .ok (.int 1) := rfl
  obtain ⟨middle, hconverse, hswept⟩ :=
    hstarted.converse_top hrungs (hother h.aside_ne haside) hground hdeep hsum htest
  rw [← runWithin_eq_converse] at hconverse
  rw [statusOf_of_get? hname] at htop
  have hread := read_of_scalar hname hshape htop hconverse
  have hvalid := hswept.statusOf_recompute hname h.top_reached (Nat.mod_self _) (.int 1)
  obtain ⟨later, hlater, hserial, -⟩ := Sweeps.get?_of_recompute hname h.top_reached hswept
  rw [← hserial] at hread hvalid
  have hlast : ∀ {name}, name ≠ top → env.Reaches ground name →
      env.statusOf name none = .uninitialized → (middle.finish top later.serial dependency.epoch
        none (.ok (.int 1))).statusOf name none = .uninitialized := by
    intro name hne hreaches hstatus
    rw [statusOf_finish hlater, if_neg fun heq => hne heq.1]
    exact hswept.uninitialized hreaches (hother hne hstatus)
  have hafter := (hstart.trans hswept.same).trans
    (sameDependencies_finish hlater none dependency.epoch (.ok (.int 1)))
  have hstored : (middle.finish top later.serial dependency.epoch none
      (.ok (.int 1))).stored.get? ground = some (.int 1) := by
    rw [finish_eq hlater]
    exact hswept.stored
  have hbeside := hlast h.aside_ne h.aside_reached haside
  refine ⟨_, hread, hafter, hvalid, hbeside, fun procedure deep hprocedure hlong => ?_⟩
  have hsum' : (Value.int 1).add (.int 1) = .ok (.int 2) := rfl
  obtain ⟨last, hlastrun, -⟩ := (h.of_same hafter).converse_top
    (fun k hk => hlast (h.top_apart k (Nat.lt_succ_of_le hk))
      (h.reached k (Nat.lt_succ_of_le hk)) (hbare k hk))
    hbeside hstored hlong hsum' hprocedure
  exact ⟨last, hlastrun⟩

theorem lt_depthLimit (env : Environment Procedure) {n : Nat} (hn : n < UInt64.size) :
    n < env.depthLimit :=
  Nat.lt_of_lt_of_le hn (Nat.le_mul_of_pos_right _ (Nat.succ_pos _))

end Towers

end Environment

/-! ### Sixteen rungs -/

theorem Value.eq_int_of_same {value : Value} {n : Int64} (h : value.same (.int n) = true) :
    value = .int n := by
  cases value with
  | array items => cases h
  | scalar leaf =>
      cases leaf with
      | float x => cases h
      | int m => rw [Value.int, beq_iff_eq.mp h]

/-- The product of an expression with itself, `n` times over. -/
def Expr.squared (expr : Expr) : Nat → Expr
  | 0 => expr
  | n + 1 => .binary .multiply (expr.squared n) (expr.squared n)

namespace Session

open Environment

def rung (k : Nat) : String := "d" ++ toString k

/-- The steps that define a tower of sixteen rungs, a variable beside it and one that reads both. -/
def raising : List Step :=
  [.assign (.written ".z") (.int 0), .define (.ofBody "a" none (.name ".z") "") none,
    .define (.ofBody (rung 0) none (.sequence [.assign ".z" (.constant (.int 1)), .name ".z"]) "")
      none] ++
  (List.range 15).map (fun k =>
    .define (.ofBody (rung (k + 1)) none ((Expr.name (rung k)).squared 4) "") none) ++
  [.define (.ofBody "x" none (.binary .add ((Expr.name (rung 15)).squared 4) (.name "a")) "") none]

/-- The steps that have a variable overtaken by `2 ^ 64` cascades while it is computed. -/
def lapping : List Step := raising ++ [.read (.written ".x") none]

/-- Whether a tower stands on a ground of zero, and no dependency has a value. -/
@[mk_iff]
structure Raised (env : Environment Procedure) : Prop where
  plain : env.dependencies.get? ⟨.root, "z"⟩ = none
  zero : (env.stored.get? ⟨.root, "z"⟩).any (·.same (.int 0)) = true
  aside : env.Computes ⟨.root, "a"⟩ (Procedure.copies ⟨.root, "z"⟩)
  top : env.Computes ⟨.root, "x"⟩ (Procedure.tops ⟨.root, rung 15⟩ ⟨.root, "a"⟩)
  lowest : env.Computes ⟨.root, rung 0⟩ (Procedure.marks ⟨.root, "z"⟩)
  upper : ∀ k < 15, env.Computes ⟨.root, rung (k + 1)⟩ (Procedure.powers ⟨.root, rung k⟩)
  aside_reads : ⟨.root, "a"⟩ ∈ env.readersOf ⟨.root, "z"⟩
  top_reads : ⟨.root, "x"⟩ ∈ env.readersOf ⟨.root, "a"⟩
  lowest_reads : ⟨.root, rung 0⟩ ∈ env.readersOf ⟨.root, "z"⟩
  upper_reads : ∀ k < 15, ⟨.root, rung (k + 1)⟩ ∈ env.readersOf ⟨.root, rung k⟩
  empty : ∀ dependency ∈ env.dependencies.values, dependency.slots.entries = []

instance (env : Environment Procedure) : Decidable (Raised env) :=
  decidable_of_iff' _ (raised_iff env)

theorem raised_of_raising : ∃ reports env,
    takeAll raising (.initial .standard .root) = some (reports, env) ∧ Raised env := by
  have hcomputed : ((takeAll raising (.initial .standard .root)).map
      fun outcome => decide (Raised outcome.2)) = some true := by
    decide +kernel
  obtain ⟨⟨reports, env⟩, htake, hraised⟩ := Option.map_eq_some_iff.mp hcomputed
  exact ⟨reports, env, htake, of_decide_eq_true hraised⟩

namespace Raised

variable {env : Environment Procedure}

theorem reached (h : Raised env) {k : Nat} (hk : k < 16) :
    env.Reaches ⟨.root, "z"⟩ ⟨.root, rung k⟩ := by
  induction k with
  | zero => exact .single h.lowest_reads
  | succ k ih =>
      exact (ih (Nat.lt_of_succ_lt hk)).tail (h.upper_reads k (Nat.lt_of_succ_lt_succ hk))

theorem spire (h : Raised env) :
    env.Spire ⟨.root, "z"⟩ (fun k => ⟨.root, rung k⟩) ⟨.root, "a"⟩ ⟨.root, "x"⟩ := by
  have hapart : ∀ k < 16, ∀ j < k, (⟨.root, rung j⟩ : QualifiedName) ≠ ⟨.root, rung k⟩ := by
    decide +kernel
  have hbeside : ∀ k < 16, (⟨.root, rung k⟩ : QualifiedName) ≠ ⟨.root, "a"⟩ ∧
      (⟨.root, rung k⟩ : QualifiedName) ≠ ⟨.root, "x"⟩ := by
    decide +kernel
  exact
    { plain := h.plain
      reached := fun _ => h.reached
      apart := hapart
      lowest := fun _ => h.lowest
      upper := fun k hk => h.upper k (Nat.lt_of_succ_lt_succ hk)
      copied := h.aside
      summed := h.top
      aside_reached := .single h.aside_reads
      top_reached := .tail (.single h.aside_reads) h.top_reads
      aside_apart := fun k hk => (hbeside k hk).1
      top_apart := fun k hk => (hbeside k hk).2
      aside_ne := by decide }

theorem statusOf_eq (h : Raised env) (name : QualifiedName) (slot : Option Int64) :
    env.statusOf name slot = .uninitialized := by
  unfold statusOf
  cases hname : env.dependencies.get? name with
  | none => rfl
  | some dependency =>
      have hslots := h.empty dependency (Table.mem_values_of_get? hname)
      have hnone : dependency.slots.get? slot = none := by
        rw [Table.get?, hslots]
        rfl
      dsimp only
      rw [Dependency.status, Dependency.slotAt, hnone]
      rfl

end Raised

theorem permits_lapping : permits (fun _ => true) lapping (.initial .standard .root) = true := by
  have hraising : permits (fun _ => true) raising (.initial .standard .root) = true := by
    decide +kernel
  exact permits_concat hraising fun _ => rfl

/-- The variable keeps a value though what it reads is to be computed anew, and though its procedure
would give another value. -/
theorem takeAll_lapping : ∃ reports env,
    takeAll lapping (.initial .standard .root) = some (reports, env) ∧ ∃ dependency after,
      env.dependencies.get? ⟨.root, "x"⟩ = some dependency ∧
      dependency.status none = .valid (.int 1) ∧
      env.run Procedure.dialogue (Procedure.dialogue dependency.procedure none) =
        some (.ok (.int 2), after) ∧
      ⟨.root, "x"⟩ ∈ env.readersOf ⟨.root, "a"⟩ ∧
      env.Computes ⟨.root, "a"⟩ (Procedure.copies ⟨.root, "z"⟩) ∧
      env.statusOf ⟨.root, "a"⟩ none = .uninitialized := by
  obtain ⟨reports, env, htake, hraised⟩ := raised_of_raising
  have hcleared : env.SameDependencies env.cleared := ⟨rfl, fun _ => rfl⟩
  have hspire := hraised.spire.of_same hcleared
  have hempty : ∀ name slot, env.cleared.statusOf name slot = .uninitialized := hraised.statusOf_eq
  obtain ⟨value, hground, hzero⟩ := (Option.any_eq_true _ _).mp hraised.zero
  rw [Value.eq_int_of_same hzero] at hground
  have hlimit : ∀ env : Environment Procedure, 16 < env.depthLimit :=
    fun env => env.lt_depthLimit (by decide)
  obtain ⟨after, hread, hsame, hvalid, haside, hrerun⟩ :=
    hspire.read_top (fun _ _ => hempty _ _) (hempty _ _) (hempty _ _) hground (hlimit _)
  have hquery : (Step.read (.written ".x") none).query env.cleared.context =
      some (.request (.read ⟨.root, "x"⟩ none) : Exchange (Except Error Value)) := rfl
  have hrun := Step.run_query Procedure.dialogue env.cleared hquery
  rw [run_read hread, Option.map_some] at hrun
  obtain ⟨dependency, hname, hshape, htops⟩ := (hspire.of_same hsame).summed
  rw [statusOf_of_get? hname] at hvalid
  obtain ⟨last, hlast⟩ := hrerun dependency.procedure after.depthLimit htops
    (Nat.lt_of_succ_lt (hlimit after))
  refine ⟨_, after, takeAll_concat htake (take_of_run hrun), dependency, last, hname, hvalid, ?_,
    ?_, hsame.computes hspire.copied, haside⟩
  · rw [Environment.run, runWithin_eq_converse]
    exact hlast
  · rw [(hcleared.trans hsame).readersOf]
    exact hraised.top_reads

end Session
end Memograph
