import Mathlib.Data.Finset.Prod
import Mathlib.Data.Fintype.Card
import Mathlib.Data.List.Induction
import Mathlib.Data.List.Nodup

/-! Lists without their repetitions: each element stands where it came first. The lists are taken
apart at their end, since a walk adds to them there. A list of pairs without repetitions is not
longer than the pairs are many. -/

namespace Memograph.Lists

variable {α β : Type} [DecidableEq α] [DecidableEq β]

theorem eraseDups_concat (l : List α) (a : α) :
    (l ++ [a]).eraseDups = if a ∈ l then l.eraseDups else l.eraseDups ++ [a] := by
  rw [List.eraseDups_append]
  by_cases h : a ∈ l <;> simp [List.removeAll, h, List.eraseDups_cons]

theorem nodup_eraseDups (l : List α) : l.eraseDups.Nodup := by
  induction l using List.reverseRecOn with
  | nil => exact List.nodup_nil
  | append_singleton l a ih =>
      rw [eraseDups_concat]
      by_cases h : a ∈ l
      · rwa [if_pos h]
      · rw [if_neg h, List.nodup_append]
        refine ⟨ih, List.nodup_singleton a, ?_⟩
        intro b hb c hc heq
        rw [List.mem_singleton] at hc
        rw [heq, hc, List.mem_eraseDups] at hb
        exact h hb

/-- Repetitions of an element give repetitions of its image, so they may be dropped before. -/
theorem eraseDups_filterMap_eraseDups (f : α → Option β) (l : List α) :
    (l.eraseDups.filterMap f).eraseDups = (l.filterMap f).eraseDups := by
  induction l using List.reverseRecOn with
  | nil => rfl
  | append_singleton l a ih =>
      rw [eraseDups_concat, List.filterMap_append]
      cases hfa : f a with
      | none => split <;> simp [hfa, ih]
      | some b =>
          have hsame : b ∈ l.eraseDups.filterMap f ↔ b ∈ l.filterMap f := by
            simp only [List.mem_filterMap, List.mem_eraseDups]
          have himage : a ∈ l → b ∈ l.filterMap f := fun ha => List.mem_filterMap.mpr ⟨a, ha, hfa⟩
          by_cases ha : a ∈ l
          · rw [if_pos ha, ih]
            simp [hfa, eraseDups_concat, himage ha]
          · rw [if_neg ha, List.filterMap_append]
            simp only [List.filterMap_cons, hfa, List.filterMap_nil, eraseDups_concat, hsame, ih]

theorem length_le_mul {n : Nat} {l : List (Fin n × α)} (hnodup : l.Nodup) {names : List α}
    (h : ∀ pair ∈ l, pair.2 ∈ names) : l.length ≤ n * names.length := by
  have hsubset : l.toFinset ⊆ (Finset.univ : Finset (Fin n)) ×ˢ names.toFinset := by
    intro pair hpair
    rw [List.mem_toFinset] at hpair
    rw [Finset.mem_product, List.mem_toFinset]
    exact ⟨Finset.mem_univ _, h pair hpair⟩
  calc l.length
      = l.toFinset.card := (List.toFinset_card_of_nodup hnodup).symm
    _ ≤ ((Finset.univ : Finset (Fin n)) ×ˢ names.toFinset).card := Finset.card_le_card hsubset
    _ = n * names.toFinset.card := by
        rw [Finset.card_product, Finset.card_univ, Fintype.card_fin]
    _ ≤ n * names.length := Nat.mul_le_mul_left _ (List.toFinset_card_le names)

end Memograph.Lists
