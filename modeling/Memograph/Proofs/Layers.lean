import Memograph.Proofs.Slots

/-! The order of a cascade. The breadth-first visit goes through the names at one distance from its
source before it comes to those at the next one, so the dependencies that a cascade lists are
listed by their distance. Nothing else is touched, what is listed keeps no value, and a second
cascade from the same name finds nothing left to do. -/

open Relation

namespace Memograph

variable {π : Type}

namespace Environment

/-! ### Distances -/

section Distances

variable (next : QualifiedName → List QualifiedName) (source : QualifiedName)

/-- Whether a walk of some number of steps leads from a source to a name. -/
inductive Walks : Nat → QualifiedName → Prop where
  | refl : Walks 0 source
  | tail {steps : Nat} {name reader : QualifiedName} :
      Walks steps name → reader ∈ next name → Walks (steps + 1) reader

/-- Whether some number of steps is the least that leads from a source to a name. -/
structure AtDistance (steps : Nat) (name : QualifiedName) : Prop where
  walks : Walks next source steps name
  least : ∀ fewer, Walks next source fewer name → steps ≤ fewer

/-- Whether a name is at most as far from a source as another one. -/
def NoFarther (name other : QualifiedName) : Prop :=
  ∃ steps further, AtDistance next source steps name ∧ AtDistance next source further other ∧
    steps ≤ further

variable {next source}

theorem Walks.reflTransGen {steps : Nat} {name : QualifiedName} (h : Walks next source steps name) :
    ReflTransGen (fun name reader => reader ∈ next name) source name := by
  induction h with
  | refl => exact .refl
  | tail _ hreader ih => exact ih.tail hreader

end Distances

/-! ### The visit by layers -/

section Layers

variable (next : QualifiedName → List QualifiedName) (source : QualifiedName)

/-- Where a visit stands: in its queue come first names at one distance, which no pending name is
nearer than, and behind them names one step further. -/
structure Layered (pending near far : List QualifiedName) (level : Nat) : Prop where
  walksNear : ∀ name ∈ near, Walks next source level name
  walksFar : ∀ name ∈ far, Walks next source (level + 1) name
  ahead : ∀ name ∈ pending, ∀ steps, Walks next source steps name → level ≤ steps
  here : ∀ name ∈ pending, Walks next source level name → name ∈ near
  /-- What a visited name leads to is in the queue, unless it was visited as well. -/
  found : ∀ name ∉ pending, ∀ steps, Walks next source steps name → ∀ reader ∈ next name,
    reader ∈ pending → reader ∈ near ∨ reader ∈ far

variable {next source} {pending near far : List QualifiedName} {level : Nat}

theorem layered_source (h : ∀ name steps, Walks next source steps name → name ∈ pending) :
    Layered next source pending [source] [] 0 where
  walksNear := by
    intro name hname
    rw [List.mem_singleton.mp hname]
    exact .refl
  walksFar := nofun
  ahead := fun _ _ _ _ => Nat.zero_le _
  here := by
    intro name _ hwalks
    cases hwalks
    exact List.mem_singleton_self source
  found := fun name hname steps hwalks => absurd (h name steps hwalks) hname

namespace Layered

/-- A name that was visited is skipped. -/
theorem skip {first : QualifiedName} (h : Layered next source pending (first :: near) far level)
    (hfirst : first ∉ pending) : Layered next source pending near far level := by
  have hne : ∀ name ∈ pending, name ∈ first :: near → name ∈ near := by
    intro name hpending hname
    refine (List.mem_cons.mp hname).resolve_left ?_
    rintro rfl
    exact hfirst hpending
  exact
    { h with
      walksNear := fun name hname => h.walksNear name (List.mem_cons_of_mem _ hname)
      here := fun name hpending hwalks => hne name hpending (h.here name hpending hwalks)
      found := fun name hname steps hwalks reader hreader hpending =>
        (h.found name hname steps hwalks reader hreader hpending).imp_left
          (hne reader hpending) }

theorem dropWhile (h : Layered next source pending near far level) :
    Layered next source pending (near.dropWhile fun name => decide (name ∉ pending)) far level := by
  induction near with
  | nil => exact h
  | cons first near ih =>
      by_cases hfirst : first ∈ pending
      · rwa [List.dropWhile_cons_of_neg (by simpa using hfirst)]
      · rw [List.dropWhile_cons_of_pos (by simpa using hfirst)]
        exact ih (h.skip hfirst)

/-- Where one layer is through, the next one begins. -/
theorem shift (h : Layered next source pending [] far level) :
    Layered next source pending far [] (level + 1) where
  walksNear := h.walksFar
  walksFar := nofun
  ahead := by
    intro name hpending steps hwalks
    refine Nat.lt_of_le_of_ne (h.ahead name hpending steps hwalks) ?_
    rintro rfl
    exact List.not_mem_nil (h.here name hpending hwalks)
  here := by
    intro name hpending hwalks
    cases hwalks with
    | @tail _ before _ hbefore hname =>
        have hvisited : before ∉ pending := fun hpending =>
          List.not_mem_nil (h.here before hpending hbefore)
        exact (h.found before hvisited level hbefore name hname hpending).resolve_left
          List.not_mem_nil
  found := fun name hname steps hwalks reader hreader hpending =>
    Or.inl ((h.found name hname steps hwalks reader hreader hpending).resolve_left
      List.not_mem_nil)

/-- A pending name is visited, and what it leads to goes to the end of the queue. -/
theorem visit {first : QualifiedName} (h : Layered next source pending (first :: near) far level)
    (hnodup : pending.Nodup) :
    Layered next source (pending.erase first) near (far ++ next first) level := by
  have hne : ∀ name ∈ pending.erase first, name ∈ first :: near → name ∈ near := by
    intro name hpending hname
    refine (List.mem_cons.mp hname).resolve_left ?_
    rintro rfl
    exact hnodup.not_mem_erase hpending
  constructor
  case walksNear => exact fun name hname => h.walksNear name (List.mem_cons_of_mem _ hname)
  case walksFar =>
    intro name hname
    rcases List.mem_append.mp hname with hname | hname
    · exact h.walksFar name hname
    · exact (h.walksNear first List.mem_cons_self).tail hname
  case ahead => exact fun name hpending => h.ahead name (List.mem_of_mem_erase hpending)
  case here =>
    intro name hpending hwalks
    exact hne name hpending (h.here name (List.mem_of_mem_erase hpending) hwalks)
  case found =>
    intro name hname steps hwalks reader hreader hpending
    by_cases heq : name = first
    · subst heq
      exact Or.inr (List.mem_append_right _ hreader)
    · rw [List.mem_erase_of_ne heq] at hname
      exact (h.found name hname steps hwalks reader hreader
        (List.mem_of_mem_erase hpending)).imp (hne reader hpending) (List.mem_append_left _)

/-- The next pending name of the queue is in the layer that the visit stands in, or in the one
behind it. -/
theorem of_dropWhile (h : Layered next source pending near far level) {first : QualifiedName}
    {rest : List QualifiedName}
    (hdrop : ((near ++ far).dropWhile fun name => decide (name ∉ pending)) = first :: rest) :
    ∃ near far later, rest = near ++ far ∧ level ≤ later ∧
      Layered next source pending (first :: near) far later := by
  rw [List.dropWhile_append] at hdrop
  have hnear := h.dropWhile
  cases hleft : near.dropWhile fun name => decide (name ∉ pending) with
  | nil =>
      rw [hleft] at hdrop hnear
      have hfar := hnear.shift.dropWhile
      rw [List.isEmpty_nil, if_pos rfl] at hdrop
      rw [hdrop] at hfar
      exact ⟨rest, [], level + 1, (List.append_nil rest).symm, Nat.le_succ level, hfar⟩
  | cons other left =>
      rw [hleft] at hdrop hnear
      obtain ⟨rfl, rfl⟩ := List.cons.inj hdrop
      exact ⟨left, far, level, rfl, Nat.le_refl level, hnear⟩

end Layered

/-- A visit goes by the distances of the names, from where it stands on. -/
theorem visit_ordered {bound : Nat} (h : Layered next source pending near far level)
    (hnodup : pending.Nodup) :
    (visit next bound pending (near ++ far)).Pairwise (NoFarther next source) ∧
      ∀ name ∈ visit next bound pending (near ++ far), ∃ steps, level ≤ steps ∧
        AtDistance next source steps name := by
  induction bound generalizing pending near far level with
  | zero => exact ⟨.nil, nofun⟩
  | succ bound ih =>
      unfold Environment.visit
      split
      · exact ⟨.nil, nofun⟩
      · next first rest hdrop =>
          obtain ⟨near, far, later, rfl, hlevel, hlayered⟩ := h.of_dropWhile hdrop
          have hfirst : AtDistance next source later first :=
            ⟨hlayered.walksNear first List.mem_cons_self,
              hlayered.ahead first (mem_pending_of_dropWhile hdrop)⟩
          obtain ⟨hordered, hbehind⟩ := ih (hlayered.visit hnodup) (hnodup.erase first)
          rw [← List.append_assoc] at hordered hbehind
          constructor
          · refine List.pairwise_cons.mpr ⟨fun name hname => ?_, hordered⟩
            obtain ⟨steps, hsteps, hdistance⟩ := hbehind name hname
            exact ⟨later, steps, hfirst, hdistance, hsteps⟩
          · intro name hname
            rcases List.mem_cons.mp hname with rfl | hname
            · exact ⟨later, hlevel, hfirst⟩
            · obtain ⟨steps, hsteps, hdistance⟩ := hbehind name hname
              exact ⟨steps, Nat.le_trans hlevel hsteps, hdistance⟩

end Layers

/-- The names that a name reaches are reached by their distance from it. -/
theorem reached_ordered (env : Environment π) (name : QualifiedName) :
    (env.reached name).Pairwise (NoFarther env.readersOf name) := by
  refine (visit_ordered (layered_source fun other steps hwalks => ?_) (Lists.nodup_eraseDups _)).1
  exact mem_pending_of_mem_visit _ ((env.mem_reached_iff name other).mpr hwalks.reflTransGen)

/-! ### The worklist -/

/-- How the worklist of a cascade is worked off: from the names that have been visited, the queue
and the environment, to the dependencies that are invalidated on the way and the environment in the
end. -/
inductive Drains : List QualifiedName → List QualifiedName → Environment π →
    List QualifiedName → Environment π → Prop where
  | done {visited : List QualifiedName} {env : Environment π} : Drains visited [] env [] env
  | again {visited queue names : List QualifiedName} {name : QualifiedName}
      {env after : Environment π} : name ∈ visited → Drains visited queue env names after →
      Drains visited (name :: queue) env names after
  | unregistered {visited queue names : List QualifiedName} {name : QualifiedName}
      {env after : Environment π} : name ∉ visited → env.dependencies.get? name = none →
      Drains (name :: visited) (queue ++ env.readersOf name) env names after →
      Drains visited (name :: queue) env names after
  | registered {visited queue names : List QualifiedName} {name : QualifiedName}
      {dependency : Dependency π} {env after : Environment π} : name ∉ visited →
      env.dependencies.get? name = some dependency →
      Drains (name :: visited) (queue ++ env.readersOf name) (env.invalidateOne name) names after →
      Drains visited (name :: queue) env (name :: names) after

section Draining

variable {visited pending queue names : List QualifiedName} {env after : Environment π}

theorem Drains.of_dropWhile (hqueue : ∀ name ∈ queue, name ∈ pending ∨ name ∈ visited)
    (h : Drains visited (queue.dropWhile fun name => decide (name ∉ pending)) env names after) :
    Drains visited queue env names after := by
  induction queue with
  | nil => exact h
  | cons first queue ih =>
      by_cases hfirst : first ∈ pending
      · rwa [List.dropWhile_cons_of_neg (by simpa using hfirst)] at h
      · rw [List.dropWhile_cons_of_pos (by simpa using hfirst)] at h
        refine .again ((hqueue first List.mem_cons_self).resolve_left hfirst) (ih ?_ h)
        exact fun name hname => hqueue name (List.mem_cons_of_mem _ hname)

theorem contains_invalidateOne (env : Environment π) (name : QualifiedName) :
    (env.invalidateOne name).dependencies.contains = env.dependencies.contains := by
  funext key
  rw [Table.contains, Table.contains, get?_invalidateOne]
  split
  · exact Option.isSome_map
  · rfl

theorem readersOf_invalidateOne (env : Environment π) (name : QualifiedName) :
    (env.invalidateOne name).readersOf = env.readersOf := by
  funext key
  unfold readersOf invalidateOne
  split <;> rfl

/-- The worklist comes to an end: each name that is visited is one less to be visited. -/
theorem drains_visit {bound : Nat} (hbound : pending.length ≤ bound) (hnodup : pending.Nodup)
    (hvisited : ∀ name ∈ pending, name ∉ visited)
    (hqueue : ∀ name ∈ queue, name ∈ pending ∨ name ∈ visited)
    (hreaders : ∀ name, ∀ reader ∈ env.readersOf name, reader ∈ pending ∨ reader ∈ visited) :
    Drains visited queue env
      ((visit env.readersOf bound pending queue).filter env.dependencies.contains)
      (((visit env.readersOf bound pending queue).filter env.dependencies.contains).foldl
        invalidateOne env) := by
  induction bound generalizing visited pending queue env with
  | zero =>
      obtain rfl := List.eq_nil_of_length_eq_zero (Nat.le_zero.mp hbound)
      refine .of_dropWhile hqueue ?_
      have hdone : (queue.dropWhile fun name => decide (name ∉ ([] : List QualifiedName))) = [] :=
        List.dropWhile_eq_nil_iff.mpr fun _ _ => by simp
      rw [hdone]
      exact .done
  | succ bound ih =>
      refine .of_dropWhile hqueue ?_
      unfold visit
      split
      · next hdrop =>
          rw [hdrop]
          exact .done
      · next first rest hdrop =>
          have hfirst := mem_pending_of_dropWhile hdrop
          have hlength := List.length_erase_of_mem hfirst
          have hmoved : ∀ name, name ∈ pending ∨ name ∈ visited →
              name ∈ pending.erase first ∨ name ∈ first :: visited := by
            intro name hname
            by_cases heq : name = first
            · exact Or.inr (heq ▸ List.mem_cons_self)
            · rw [List.mem_erase_of_ne heq]
              exact hname.imp_right (List.mem_cons_of_mem _)
          have hrest : ∀ name ∈ rest ++ env.readersOf first,
              name ∈ pending.erase first ∨ name ∈ first :: visited := by
            intro name hname
            apply hmoved
            rcases List.mem_append.mp hname with hname | hname
            · apply hqueue
              exact (List.dropWhile_sublist _).subset (hdrop ▸ List.mem_cons_of_mem _ hname)
            · exact hreaders first name hname
          have hleft : ∀ name ∈ pending.erase first, name ∉ first :: visited := by
            intro name hname hmem
            rcases List.mem_cons.mp hmem with rfl | hmem
            · exact hnodup.not_mem_erase hname
            · exact hvisited name (List.mem_of_mem_erase hname) hmem
          rw [hdrop, List.filter_cons]
          cases hname : env.dependencies.get? first with
          | none =>
              rw [if_neg (by simp [Table.contains, hname])]
              exact .unregistered (hvisited first hfirst) hname
                (ih (by omega) (hnodup.erase first) hleft hrest fun name reader hreader =>
                  hmoved reader (hreaders name reader hreader))
          | some dependency =>
              rw [if_pos (by simp [Table.contains, hname]), List.foldl_cons]
              refine .registered (hvisited first hfirst) hname ?_
              have hlast := @ih (first :: visited) (pending.erase first)
                (rest ++ env.readersOf first) (env.invalidateOne first) (by omega)
                (hnodup.erase first) hleft hrest fun name reader hreader => by
                  rw [readersOf_invalidateOne] at hreader
                  exact hmoved reader (hreaders name reader hreader)
              rwa [readersOf_invalidateOne, contains_invalidateOne] at hlast

end Draining
end Environment

/-! ### What a cascade leaves -/

namespace Dependency

/-- What a cascade makes of a dependency that it lists. -/
structure Emptied (before after : Dependency π) : Prop where
  signature : after.signature = before.signature
  recomputes : after.recomputes = before.recomputes
  valueless : ¬after.HasValue
  /-- The slot of a scalar dependency holds no value and stays marked while it is recomputed. -/
  scalar : before.shape = .scalar → ∀ index, after.slotAt index =
    ⟨if (before.slotAt index).isRunning then .evaluating else .uninitialized, none⟩
  /-- The slots of an itemwise dependency go, but for those that are being recomputed. -/
  itemwise : before.shape = .itemwise → ∀ index,
    after.slots.get? index = (before.slots.get? index).filter Slot.isRunning

theorem emptied_invalidate (dependency : Dependency π) :
    dependency.Emptied dependency.invalidate where
  signature := rfl
  recomputes := rfl
  valueless := dependency.not_hasValue_invalidate
  scalar := by
    intro hshape index
    rw [slotAt, slotAt, invalidate, hshape]
    dsimp only
    rw [Table.get?_mapValues]
    cases dependency.slots.get? index with
    | none => rfl
    | some slot => rcases slot with ⟨_ | _ | _, cached⟩ <;> rfl
  itemwise := by
    intro hshape index
    rw [invalidate, hshape]
    exact Table.get?_filterValues _ _ _

/-- A dependency that was invalidated has nothing left to lose. -/
theorem slots_invalidate_invalidate (dependency : Dependency π) :
    dependency.invalidate.invalidate.slots = dependency.invalidate.slots := by
  unfold invalidate
  cases dependency.shape with
  | scalar =>
      dsimp only
      rw [Table.mapValues_mapValues]
      congr 1
      funext slot
      rcases slot with ⟨_ | _ | _, cached⟩ <;> rfl
  | itemwise => simp only [Table.filterValues, List.filter_filter, Bool.and_self]

end Dependency

namespace Environment

/-- What a cascade from a name does, and which dependencies it lists. -/
structure Cascades (env : Environment π) (source : QualifiedName) (names : List QualifiedName)
    (after : Environment π) : Prop where
  /-- The worklist comes to an end. -/
  drains : Drains [] [source] env names after
  nodup : names.Nodup
  mem_iff : ∀ name, name ∈ names ↔
    env.dependencies.contains name = true ∧ env.Reaches source name
  ordered : names.Pairwise (NoFarther env.readersOf source)
  listed : ∀ name ∈ names, ∃ before later, env.dependencies.get? name = some before ∧
    after.dependencies.get? name = some later ∧ before.Emptied later
  unlisted : ∀ name ∉ names, after.dependencies.get? name = env.dependencies.get? name
  recomputes : after.dependencies.mapValues (fun dependency => dependency.recomputes) =
    env.dependencies.mapValues fun dependency => dependency.recomputes
  /-- Nothing but dependencies is changed. -/
  rest : after = { env with dependencies := after.dependencies }
  /-- A second cascade lists the same dependencies and finds their slots as it leaves them. -/
  again : (after.notify source).1 = names ∧ ∀ name,
    ((after.notify source).2.dependencies.get? name).map (fun dependency => dependency.slots) =
      (after.dependencies.get? name).map fun dependency => dependency.slots

variable (env : Environment π) (source : QualifiedName)

theorem drains_notify : Drains [] [source] env (env.notify source).1 (env.notify source).2 := by
  have hmem : ∀ name, env.Reaches source name →
      name ∈ (source :: env.readers.values.flatten).eraseDups := fun name hname =>
    mem_pending_of_mem_visit _ ((env.mem_reached_iff source name).mpr hname)
  refine drains_visit (Nat.le_refl _) (Lists.nodup_eraseDups _) (fun _ _ => List.not_mem_nil) ?_ ?_
  · intro name hname
    rw [List.mem_singleton.mp hname]
    exact Or.inl (hmem source .refl)
  · intro name reader hreader
    rw [List.mem_eraseDups]
    exact Or.inl (List.mem_cons_of_mem _ (env.readersOf_subset name hreader))

theorem mem_notify_iff (name : QualifiedName) : name ∈ (env.notify source).1 ↔
    env.dependencies.contains name = true ∧ env.Reaches source name := by
  rw [notify, List.mem_filter, mem_reached_iff, and_comm]

theorem contains_notify :
    (env.notify source).2.dependencies.contains = env.dependencies.contains := by
  funext name
  have hsame := env.signature_notify source name
  rw [Table.contains, Table.contains, ← Option.isSome_map (f := Dependency.signature), hsame,
    Option.isSome_map]

/-- A second cascade lists what the first one has listed. -/
theorem notify_notify_fst : ((env.notify source).2.notify source).1 = (env.notify source).1 := by
  have hreaders : (env.notify source).2.readers = env.readers := by rw [notify_snd]
  have hreached : (env.notify source).2.reached source = env.reached source := by
    unfold reached readersOf
    rw [hreaders]
  rw [notify, hreached, contains_notify]
  rfl

theorem slots_notify_notify (name : QualifiedName) :
    (((env.notify source).2.notify source).2.dependencies.get? name).map
        (fun dependency => dependency.slots) =
      ((env.notify source).2.dependencies.get? name).map fun dependency => dependency.slots := by
  have hreaches : (env.notify source).2.Reaches = env.Reaches :=
    reaches_of_readers_eq (by rw [notify_snd])
  by_cases h : env.Reaches source name
  · rw [notify_get?_of_reaches _ (by rwa [hreaches]), notify_get?_of_reaches env h, Option.map_map,
      Option.map_map, Option.map_map]
    congr 1
    funext dependency
    exact dependency.slots_invalidate_invalidate
  · rw [notify_get?_of_not_reaches _ (by rwa [hreaches])]

/-- A cascade lists the dependencies behind a name by their distance from it, empties them and
leaves all else as it is, however names read each other. -/
theorem notify_cascades : env.Cascades source (env.notify source).1 (env.notify source).2 where
  drains := env.drains_notify source
  nodup := (env.reached_nodup source).filter _
  mem_iff := env.mem_notify_iff source
  ordered := (env.reached_ordered source).filter _
  listed := by
    intro name hname
    obtain ⟨hcontains, hreaches⟩ := (env.mem_notify_iff source name).mp hname
    obtain ⟨dependency, hdependency⟩ := Option.isSome_iff_exists.mp hcontains
    refine ⟨dependency, dependency.invalidate, hdependency, ?_, dependency.emptied_invalidate⟩
    rw [notify_get?_of_reaches env hreaches, hdependency, Option.map_some]
  unlisted := by
    intro name hname
    by_cases hreaches : env.Reaches source name
    · rw [notify_get?_of_reaches env hreaches]
      have hnone : env.dependencies.get? name = none := by
        rw [Table.get?_eq_none_iff, ← Table.contains_iff]
        exact fun hcontains => hname ((env.mem_notify_iff source name).mpr ⟨hcontains, hreaches⟩)
      rw [hnone, Option.map_none]
    · exact notify_get?_of_not_reaches env hreaches
  recomputes := mapValues_notify (fun _ => rfl) env source
  rest := env.notify_snd source
  again := ⟨env.notify_notify_fst source, env.slots_notify_notify source⟩

end Environment
end Memograph
