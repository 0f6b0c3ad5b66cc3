import Memograph.Proofs.Evolution

/-! Every run ends. A slot that is being recomputed is not started again, a scalar dependency has
one slot and an itemwise one at most `2 ^ 64`; so recomputes never nest as deep as they may, and a
run that stays inside of a footprint has a result. -/

namespace Memograph

/-- Whether a slot is one that dependencies of a shape have. -/
def Shape.Fits : Shape → Option Int64 → Prop
  | .scalar, slot => slot = none
  | .itemwise, slot => slot ≠ none

theorem Shape.fits_of_slot? {shape : Shape} {index slot : Option Int64}
    (h : shape.slot? index = some slot) : shape.Fits slot := by
  cases shape with
  | scalar => exact (Option.some.inj h).symm
  | itemwise =>
      cases index with
      | none => cases h
      | some position =>
          cases h
          exact Option.some_ne_none position

namespace Nesting

/-- The number of a slot among those of its dependency. -/
def code (slot : Option Int64) : Fin (2 ^ 64) := ((slot.getD 0).toBitVec).toFin

theorem code_injective_of_fits {shape : Shape} {slot slot' : Option Int64}
    (h : shape.Fits slot) (h' : shape.Fits slot') (hcode : code slot = code slot') :
    slot = slot' := by
  have hposition : slot.getD 0 = slot'.getD 0 :=
    Int64.toBitVec.inj (BitVec.eq_of_toFin_eq hcode)
  cases shape with
  | scalar => exact Eq.trans h (Eq.symm h')
  | itemwise =>
      obtain ⟨position, rfl⟩ := Option.ne_none_iff_exists'.mp h
      obtain ⟨position', rfl⟩ := Option.ne_none_iff_exists'.mp h'
      exact congrArg some hposition

/-- No more slots are there than `2 ^ 64` for each name. -/
theorem length_le (shapeOf : QualifiedName → Option Shape) {names : List QualifiedName}
    {slots : List (QualifiedName × Option Int64)} (hnodup : slots.Nodup)
    (hfits : ∀ slot ∈ slots, slot.1 ∈ names ∧
      ∃ shape, shapeOf slot.1 = some shape ∧ shape.Fits slot.2) :
    slots.length ≤ 2 ^ 64 * names.length := by
  have hcoded : (slots.map fun slot => (code slot.2, slot.1)).Nodup := by
    refine List.Nodup.map_on ?_ hnodup
    rintro ⟨name, slot⟩ hslot ⟨name', slot'⟩ hslot' heq
    obtain ⟨hcode, hname⟩ := Prod.mk.inj heq
    dsimp only at hcode hname
    subst hname
    obtain ⟨-, shape, hshape, hfit⟩ := hfits _ hslot
    obtain ⟨-, shape', hshape', hfit'⟩ := hfits _ hslot'
    obtain rfl : shape = shape' := Option.some.inj (hshape.symm.trans hshape')
    exact congrArg (Prod.mk name) (code_injective_of_fits hfit hfit' hcode)
  rw [← List.length_map fun slot : QualifiedName × Option Int64 => (code slot.2, slot.1)]
  refine Lists.length_le_mul hcoded fun coded hmem => ?_
  obtain ⟨slot, hslot, rfl⟩ := List.mem_map.mp hmem
  exact (hfits slot hslot).1

end Nesting

namespace Environment

variable {π α : Type} {meaning : Meaning π}

/-- The slots whose recomputes are on the stack. -/
def underway (env : Environment π) : List (QualifiedName × Option Int64) :=
  env.stack.map fun frame => (frame.name, frame.index)

/-- Whether the stack and the slots say the same of what is being recomputed. -/
structure Balanced (env : Environment π) : Prop where
  running : ∀ name slot, env.statusOf name slot = .evaluating ↔ (name, slot) ∈ env.underway
  nodup : env.underway.Nodup
  fits : ∀ entry ∈ env.underway, ∃ dependency,
    env.dependencies.get? entry.1 = some dependency ∧ dependency.shape.Fits entry.2

theorem Evolves.balanced {env after : Environment π} (h : env.Evolves after)
    (henv : env.Balanced) : after.Balanced := by
  have hunderway : after.underway = env.underway := by
    unfold underway
    rw [h.stack]
  constructor
  · intro name slot
    rw [h.running, henv.running, hunderway]
  · rw [hunderway]
    exact henv.nodup
  · intro entry hentry
    rw [hunderway] at hentry
    obtain ⟨dependency, hname, hfits⟩ := henv.fits entry hentry
    obtain ⟨later, hlater, heq, -⟩ := h.same.get?_eq_some hname
    exact ⟨later, hlater, heq ▸ hfits⟩

theorem Balanced.start {env : Environment π} (henv : env.Balanced) {name : QualifiedName}
    {dependency : Dependency π} {slot : Option Int64}
    (hname : env.dependencies.get? name = some dependency) (hfits : dependency.shape.Fits slot)
    (hstatus : dependency.status slot = .uninitialized) :
    (env.start name dependency slot).Balanced := by
  have hunderway : (env.start name dependency slot).underway = (name, slot) :: env.underway := rfl
  have hidle : (name, slot) ∉ env.underway := by
    rw [← henv.running, statusOf_of_get? hname, hstatus]
    simp
  constructor
  · intro key index
    rw [hunderway, evaluating_start_iff hname, List.mem_cons, Prod.mk.injEq, henv.running]
  · rw [hunderway]
    exact List.nodup_cons.mpr ⟨hidle, henv.nodup⟩
  · intro entry hentry
    have hstart := sameDependencies_start hname slot
    rw [hunderway] at hentry
    rcases List.mem_cons.mp hentry with rfl | hentry
    · obtain ⟨started, hstarted, heq, -⟩ := hstart.get?_eq_some hname
      exact ⟨started, hstarted, heq ▸ hfits⟩
    · obtain ⟨other, hother, hotherfits⟩ := henv.fits entry hentry
      obtain ⟨started, hstarted, heq, -⟩ := hstart.get?_eq_some hother
      exact ⟨started, hstarted, heq ▸ hotherfits⟩

/-- Whether there is room for recomputes of the dependencies of some names to nest. -/
structure Roomy (names : List QualifiedName) (depth : Nat) (env : Environment π) : Prop where
  balanced : env.Balanced
  named : ∀ name dependency, env.dependencies.get? name = some dependency → name ∈ names
  room : 2 ^ 64 * names.length ≤ depth + env.stack.length

theorem Roomy.length_le {names : List QualifiedName} {depth : Nat} {env : Environment π}
    (h : env.Roomy names depth) : env.stack.length ≤ 2 ^ 64 * names.length := by
  have hlength : env.underway.length = env.stack.length := List.length_map _
  rw [← hlength]
  refine Nesting.length_le env.shapeOf h.balanced.nodup fun entry hentry => ?_
  obtain ⟨dependency, hname, hfits⟩ := h.balanced.fits entry hentry
  exact ⟨h.named _ _ hname, dependency.shape, shapeOf_of_get? hname, hfits⟩

theorem Evolves.roomy {env after : Environment π} (h : env.Evolves after)
    {names : List QualifiedName} {depth : Nat} (henv : env.Roomy names depth) :
    after.Roomy names depth := by
  refine ⟨h.balanced henv.balanced, fun name later hlater => ?_, ?_⟩
  · obtain ⟨dependency, hname, -, -⟩ := h.same.symm.get?_eq_some hlater
    exact henv.named name dependency hname
  · rw [h.stack]
    exact henv.room

theorem Roomy.start {names : List QualifiedName} {depth : Nat} {env : Environment π}
    (h : env.Roomy names depth) {name : QualifiedName} {dependency : Dependency π}
    {slot : Option Int64} (hname : env.dependencies.get? name = some dependency)
    (hfits : dependency.shape.Fits slot) (hstatus : dependency.status slot = .uninitialized) :
    (env.start name dependency slot).Roomy names (depth - 1) := by
  refine ⟨h.balanced.start hname hfits hstatus, fun key started hstarted => ?_, ?_⟩
  · obtain ⟨other, hother, -, -⟩ :=
      (sameDependencies_start hname slot).symm.get?_eq_some hstarted
    exact h.named key other hother
  · have hroom := h.room
    change 2 ^ 64 * names.length ≤ depth - 1 + (env.stack.length + 1)
    omega

theorem exists_read {run : Runner π (Except Error Value)} {env : Environment π}
    {name : QualifiedName}
    (h : ∀ dependency slot, env.dependencies.get? name = some dependency →
      dependency.shape.Fits slot → dependency.status slot = .uninitialized →
        ∃ outcome, run (meaning dependency.procedure slot) (env.start name dependency slot) =
          some outcome)
    (index : Option Int64) : ∃ outcome, env.read run meaning name index = some outcome := by
  cases hname : env.dependencies.get? name with
  | none => exact ⟨_, read_of_unregistered hname index⟩
  | some dependency =>
      cases hslot : dependency.shape.slot? index with
      | none => exact ⟨_, read_of_unindexed hname hslot⟩
      | some slot =>
          have hcompute : ∃ outcome, compute run meaning name dependency slot env =
              some outcome := by
            unfold compute
            cases hstatus : dependency.status slot with
            | valid value => exact ⟨_, rfl⟩
            | evaluating => exact ⟨_, rfl⟩
            | uninitialized =>
                obtain ⟨outcome, hrun⟩ :=
                  h dependency slot hname (Shape.fits_of_slot? hslot) hstatus
                simp only [hrun]
                exact ⟨_, rfl⟩
          obtain ⟨outcome, houtcome⟩ := hcompute
          exact ⟨_, by rw [read_of_slot? hname hslot, houtcome, Option.map_some]⟩

theorem exists_converse {depth : Nat} {P : Environment π → Prop}
    (hP : ∀ {env after : Environment π}, env.Evolves after → P env → P after)
    (hread : ∀ {env : Environment π} (name : QualifiedName) (index : Option Int64),
      env.Regular meaning → P env →
        ∃ outcome, env.read (nested meaning depth) meaning name index = some outcome)
    {footprint : Footprint} {post : List QualifiedName → α → Prop} {asked : List QualifiedName}
    {d : Dialogue π (Except Error α)} (hd : d.Follows footprint post asked)
    {env : Environment π} (henv : env.Regular meaning)
    (hstores : env.Owns footprint.stores) (hPenv : P env) :
    ∃ outcome, converse (respond (nested meaning depth) meaning) d env = some outcome := by
  induction hd generalizing env with
  | failed cause => exact ⟨_, rfl⟩
  | done hpost => exact ⟨_, rfl⟩
  | @read asked name index next hname hfailed hnext ih =>
      obtain ⟨⟨answer, middle⟩, hreply⟩ := hread name index henv hPenv
      have hstep : env.Evolves middle := (steady_evolves meaning).read henv hreply
      rw [converse_read hreply]
      cases answer with
      | error cause =>
          rw [hfailed]
          exact ⟨_, rfl⟩
      | ok value =>
          exact ih value (hstep.same.regular henv) (hstep.same.owns hstores) (hP hstep hPenv)
  | @assign asked name value rest hname hrest ih =>
      have hstep := evolves_assign henv.indexed name value
      exact ih (hstep.same.regular henv) (hstep.same.owns hstores) (hP hstep hPenv)
  | @store asked name value rest hname hrest ih =>
      obtain ⟨dependency, hdependency⟩ := hstores name hname
      have hstep := evolves_store hdependency value
      exact ih (hstep.same.regular henv) (hstep.same.owns hstores) (hP hstep hPenv)

theorem Roomy.exists_read {names : List QualifiedName} {depth : Nat} {env : Environment π}
    (name : QualifiedName) (index : Option Int64) (henv : env.Regular meaning)
    (h : env.Roomy names depth) :
    ∃ outcome, env.read (nested meaning depth) meaning name index = some outcome := by
  induction depth generalizing env name index with
  | zero =>
      refine Environment.exists_read (fun dependency slot hname hfits hstatus => ?_) index
      -- With another recompute there would be more of them than slots.
      have hstart := h.start hname hfits hstatus
      have hlength : env.stack.length + 1 ≤ 2 ^ 64 * names.length := hstart.length_le
      have hroom := h.room
      omega
  | succ depth ih =>
      refine Environment.exists_read (fun dependency slot hname hfits hstatus => ?_) index
      have hsame := sameDependencies_start hname slot
      obtain ⟨footprint, -, hstores, hfollows⟩ := henv.disciplined name dependency hname
      rw [nested, runWithin_eq_converse]
      exact exists_converse (fun hstep => hstep.roomy) ih (hfollows slot) (hsame.regular henv)
        (hsame.owns (owns_of_subset hname hstores)) (h.start hname hfits hstatus)

/-- A run that stays inside of a footprint ends, from every regular environment whose stack and
slots are in balance. -/
theorem exists_run {footprint : Footprint} {post : List QualifiedName → α → Prop}
    {asked : List QualifiedName} {d : Dialogue π (Except Error α)}
    (hd : d.Follows footprint post asked) {env : Environment π} (henv : env.Regular meaning)
    (hbalanced : env.Balanced)
    (hstores : env.Owns footprint.stores) :
    ∃ outcome, env.run meaning d = some outcome := by
  have hroomy : env.Roomy env.dependencies.keys env.depthLimit := by
    refine ⟨hbalanced, fun name dependency hname => Table.mem_keys_of_get? hname, ?_⟩
    have hsize := env.dependencies.length_keys
    rw [depthLimit, UInt64.size]
    omega
  unfold run
  rw [runWithin_eq_converse]
  exact exists_converse (fun hstep => hstep.roomy)
    (fun name index henv h => h.exists_read name index henv) hd henv hstores hroomy

end Environment
end Memograph
