import Memograph.Environment
import Memograph.Proofs.Lists
import Mathlib.Data.List.TakeWhile
import Mathlib.Logic.Relation

/-! What a cascade reaches. The breadth-first visit is held against reachability in the index of
readers: it meets everything that can be reached, nothing else, and each name once. A cascade then
invalidates exactly the dependencies of the names it meets, and changes nothing besides them. -/

open Relation

namespace Memograph.Environment

/-! ### The visit -/

section Visit

variable (next : QualifiedName → List QualifiedName)

/-- Skipping to the next pending name of a queue loses no pending name. -/
theorem mem_dropWhile_of_mem_pending {pending queue : List QualifiedName} {name : QualifiedName}
    (hqueue : name ∈ queue) (hpending : name ∈ pending) :
    name ∈ queue.dropWhile fun name => decide (name ∉ pending) := by
  rw [← List.takeWhile_append_dropWhile (p := fun name => decide (name ∉ pending)) (l := queue),
    List.mem_append] at hqueue
  rcases hqueue with hskipped | hleft
  · have hnot := List.mem_takeWhile_imp hskipped
    rw [decide_eq_true_eq] at hnot
    exact absurd hpending hnot
  · exact hleft

theorem mem_pending_of_dropWhile {pending queue rest : List QualifiedName} {first : QualifiedName}
    (h : (queue.dropWhile fun name => decide (name ∉ pending)) = first :: rest) :
    first ∈ pending := by
  have hfirst := List.head?_dropWhile_not (fun name => decide (name ∉ pending)) queue
  rw [h] at hfirst
  simpa using hfirst

theorem mem_visit_of_mem_queue {bound : Nat} {pending queue : List QualifiedName}
    {name : QualifiedName} (hbound : pending.length ≤ bound) (hqueue : name ∈ queue)
    (hpending : name ∈ pending) : name ∈ visit next bound pending queue := by
  induction bound generalizing pending queue with
  | zero =>
      have := List.length_pos_of_mem hpending
      omega
  | succ bound ih =>
      have hleft := mem_dropWhile_of_mem_pending hqueue hpending
      unfold visit
      split
      · next hdrop =>
          rw [hdrop] at hleft
          cases hleft
      · next first queue hdrop =>
          rw [hdrop] at hleft
          have hfirst := mem_pending_of_dropWhile hdrop
          by_cases heq : name = first
          · exact heq ▸ List.mem_cons_self
          · have hrest := (List.mem_cons.mp hleft).resolve_left heq
            have hlength := List.length_erase_of_mem hfirst
            apply List.mem_cons_of_mem
            exact ih (by omega) (List.mem_append_left _ hrest)
              ((List.mem_erase_of_ne heq).mpr hpending)

theorem mem_visit_of_mem_next {bound : Nat} {pending queue : List QualifiedName}
    {name reader : QualifiedName} (hbound : pending.length ≤ bound)
    (hname : name ∈ visit next bound pending queue) (hreader : reader ∈ next name)
    (hpending : reader ∈ pending) : reader ∈ visit next bound pending queue := by
  induction bound generalizing pending queue with
  | zero => cases hname
  | succ bound ih =>
      unfold visit at hname ⊢
      split at hname
      · cases hname
      · next first queue hdrop =>
          have hfirst := mem_pending_of_dropWhile hdrop
          have hlength := List.length_erase_of_mem hfirst
          by_cases heq : reader = first
          · exact heq ▸ List.mem_cons_self
          · have hleft : reader ∈ pending.erase first := (List.mem_erase_of_ne heq).mpr hpending
            apply List.mem_cons_of_mem
            rcases List.mem_cons.mp hname with rfl | hname
            · exact mem_visit_of_mem_queue next (by omega) (List.mem_append_right _ hreader) hleft
            · exact ih (by omega) hname hleft

theorem visit_sound {bound : Nat} {pending queue : List QualifiedName} {name : QualifiedName}
    (hname : name ∈ visit next bound pending queue) :
    ∃ first ∈ queue, ReflTransGen (fun name reader => reader ∈ next name) first name := by
  induction bound generalizing pending queue with
  | zero => cases hname
  | succ bound ih =>
      unfold visit at hname
      split at hname
      · cases hname
      · next first rest hdrop =>
          have hqueue : ∀ other ∈ first :: rest, other ∈ queue := fun other hother =>
            (List.dropWhile_sublist _).subset (hdrop ▸ hother)
          rcases List.mem_cons.mp hname with rfl | hname
          · exact ⟨name, hqueue name List.mem_cons_self, .refl⟩
          · obtain ⟨start, hstart, hpath⟩ := ih hname
            rcases List.mem_append.mp hstart with hstart | hstart
            · exact ⟨start, hqueue start (List.mem_cons_of_mem _ hstart), hpath⟩
            · exact ⟨first, hqueue first List.mem_cons_self, .head hstart hpath⟩

theorem mem_pending_of_mem_visit {bound : Nat} {pending queue : List QualifiedName}
    {name : QualifiedName} (hname : name ∈ visit next bound pending queue) : name ∈ pending := by
  induction bound generalizing pending queue with
  | zero => cases hname
  | succ bound ih =>
      unfold visit at hname
      split at hname
      · cases hname
      · next first rest hdrop =>
          rcases List.mem_cons.mp hname with rfl | hname
          · exact mem_pending_of_dropWhile hdrop
          · exact List.mem_of_mem_erase (ih hname)

theorem visit_nodup {bound : Nat} {pending queue : List QualifiedName} (hpending : pending.Nodup) :
    (visit next bound pending queue).Nodup := by
  induction bound generalizing pending queue with
  | zero => exact List.nodup_nil
  | succ bound ih =>
      unfold visit
      split
      · exact List.nodup_nil
      · next first rest hdrop =>
          rw [List.nodup_cons]
          refine ⟨fun hmem => ?_, ih (hpending.erase first)⟩
          exact hpending.not_mem_erase (mem_pending_of_mem_visit next hmem)

end Visit

/-! ### Reachability -/

variable {π : Type}

/-- Whether the second name is the first or reads it, directly or through others. -/
def Reaches (env : Environment π) : QualifiedName → QualifiedName → Prop :=
  ReflTransGen fun name reader => reader ∈ env.readersOf name

theorem readersOf_subset (env : Environment π) (name : QualifiedName) :
    env.readersOf name ⊆ env.readers.values.flatten := by
  intro reader hreader
  unfold readersOf at hreader
  cases hnames : env.readers.get? name with
  | none => simp [hnames] at hreader
  | some names =>
      rw [hnames, Option.getD_some] at hreader
      exact List.mem_flatten.mpr ⟨names, Table.mem_values_of_get? hnames, hreader⟩

/-- The visit of an assigned name meets exactly what the name reaches. -/
theorem mem_reached_iff (env : Environment π) (name reader : QualifiedName) :
    reader ∈ env.reached name ↔ env.Reaches name reader := by
  constructor
  · intro h
    obtain ⟨first, hfirst, hpath⟩ := visit_sound _ h
    rw [List.mem_singleton] at hfirst
    exact hfirst ▸ hpath
  · intro h
    induction h with
    | refl =>
        apply mem_visit_of_mem_queue _ (Nat.le_refl _) List.mem_cons_self
        rw [List.mem_eraseDups]
        exact List.mem_cons_self
    | tail _ hreader ih =>
        apply mem_visit_of_mem_next _ (Nat.le_refl _) ih hreader
        rw [List.mem_eraseDups]
        exact List.mem_cons_of_mem _ (readersOf_subset env _ hreader)

theorem reached_nodup (env : Environment π) (name : QualifiedName) : (env.reached name).Nodup :=
  visit_nodup _ (Lists.nodup_eraseDups _)

theorem reaches_of_readers_eq {env after : Environment π} (h : after.readers = env.readers) :
    after.Reaches = env.Reaches := by
  unfold Reaches readersOf
  rw [h]

/-! ### The cascade -/

theorem get?_invalidateOne (env : Environment π) (name key : QualifiedName) :
    (env.invalidateOne name).dependencies.get? key =
      if key = name then (env.dependencies.get? key).map Dependency.invalidate
      else env.dependencies.get? key := by
  unfold invalidateOne
  cases hname : env.dependencies.get? name with
  | none =>
      by_cases h : key = name
      · simp [h, hname]
      · simp [h]
  | some dependency =>
      by_cases h : key = name
      · simp [h, hname]
      · simp [h]

theorem get?_foldl_invalidateOne {names : List QualifiedName} (hnodup : names.Nodup)
    (env : Environment π) (key : QualifiedName) :
    (names.foldl invalidateOne env).dependencies.get? key =
      if key ∈ names then (env.dependencies.get? key).map Dependency.invalidate
      else env.dependencies.get? key := by
  induction names generalizing env with
  | nil => simp
  | cons name names ih =>
      obtain ⟨hname, hnames⟩ := List.nodup_cons.mp hnodup
      rw [List.foldl_cons, ih hnames, get?_invalidateOne]
      by_cases h : key = name
      · subst h
        simp [hname]
      · simp [h]

theorem notify_get?_of_reaches (env : Environment π) {name key : QualifiedName}
    (h : env.Reaches name key) :
    (env.notify name).2.dependencies.get? key =
      (env.dependencies.get? key).map Dependency.invalidate := by
  unfold notify
  rw [get?_foldl_invalidateOne ((reached_nodup env name).filter _)]
  by_cases hkey : env.dependencies.contains key = true
  · rw [if_pos (List.mem_filter.mpr ⟨(mem_reached_iff env name key).mpr h, hkey⟩)]
  · have hnone : env.dependencies.get? key = none := by
      rw [Table.get?_eq_none_iff, ← Table.contains_iff]
      exact hkey
    simp [hnone]

theorem notify_get?_of_not_reaches (env : Environment π) {name key : QualifiedName}
    (h : ¬env.Reaches name key) :
    (env.notify name).2.dependencies.get? key = env.dependencies.get? key := by
  unfold notify
  rw [get?_foldl_invalidateOne ((reached_nodup env name).filter _), if_neg]
  intro hmem
  exact h ((mem_reached_iff env name key).mp (List.mem_filter.mp hmem).1)

theorem foldl_invalidateOne_eq (names : List QualifiedName) (env : Environment π) :
    names.foldl invalidateOne env =
      { env with dependencies := (names.foldl invalidateOne env).dependencies } := by
  induction names generalizing env with
  | nil => rfl
  | cons name names ih =>
      rw [List.foldl_cons, ih]
      unfold invalidateOne
      split <;> rfl

/-- A cascade changes dependencies and nothing else. -/
theorem notify_snd (env : Environment π) (name : QualifiedName) :
    (env.notify name).2 = { env with dependencies := (env.notify name).2.dependencies } :=
  foldl_invalidateOne_eq _ env

/-- What an invalidation leaves as it is in a dependency, a cascade leaves as it is in all. -/
theorem mapValues_notify {β : Type} {f : Dependency π → β}
    (hf : ∀ dependency, f dependency.invalidate = f dependency) (env : Environment π)
    (name : QualifiedName) :
    (env.notify name).2.dependencies.mapValues f = env.dependencies.mapValues f := by
  unfold notify
  dsimp only
  generalize (env.reached name).filter env.dependencies.contains = names
  induction names generalizing env with
  | nil => rfl
  | cons first names ih =>
      rw [List.foldl_cons, ih]
      unfold invalidateOne
      cases hfirst : env.dependencies.get? first with
      | none => rfl
      | some dependency => exact Table.mapValues_insert_of_eq hfirst (hf dependency)

end Memograph.Environment
