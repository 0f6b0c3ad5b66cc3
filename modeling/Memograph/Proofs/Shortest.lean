import Memograph.Numeral.Shortest
import Memograph.Proofs.Floats
import Memograph.Proofs.Numerals

/-! Every finite float has a shortest numeral. On the finest grid two points lie no further apart
than a quarter of the last place of any float, so a point reads back there at the latest; and a
point that reads back as a positive number is not zero, so its digits start with another one. -/

namespace Memograph

theorem Digit.leading_of_head? {digits : List Digit} (hne : digits ≠ [])
    (hhead : digits.head? ≠ some 0) : Digit.Leading digits where
  nonempty := hne
  alone := fun heq => absurd (congrArg List.head? heq) hhead

namespace Numeral

/-! ### Grids -/

/-- A point that reads back as a positive number is positive. -/
theorem gridPoint?_pos {x : Binary64} {k : Int} {point : Nat} (hx : 0 < x.mantissa)
    (h : gridPoint? x k = some point) : 0 < point := by
  unfold gridPoint? at h
  extract_lets unit step low here high inside below at h
  have hlow : 0 < low := by
    have hunit : 0 < unit := Nat.shiftLeft_pos_iff.mpr (Nat.pow_pos (by decide))
    refine Nat.mul_pos ?_ hunit
    unfold quartersBelow
    split <;> omega
  have hinside (p : Nat) (hp : inside p = true) : 0 < p := by
    refine Nat.pos_of_ne_zero ?_
    rintro rfl
    simp only [inside, Nat.zero_mul] at hp
    split at hp
    · have := (of_decide_eq_true hp).1
      omega
    · have := (of_decide_eq_true hp).1
      omega
  -- Either the point below the number is taken or the one after that, and it reads back.
  have htaken : (point = below ∧ inside below = true) ∨
      (point = below + 1 ∧ inside (below + 1) = true) := by
    split at h
    · cases h
    · next hhere _ => exact Or.inl ⟨(Option.some.inj h).symm, hhere⟩
    · next _ hnext => exact Or.inr ⟨(Option.some.inj h).symm, hnext⟩
    · next hhere hnext =>
      split at h
      · exact Or.inl ⟨(Option.some.inj h).symm, hhere⟩
      · split at h
        · exact Or.inr ⟨(Option.some.inj h).symm, hnext⟩
        · split at h
          · exact Or.inl ⟨(Option.some.inj h).symm, hhere⟩
          · exact Or.inr ⟨(Option.some.inj h).symm, hnext⟩
  rcases htaken with ⟨rfl, hread⟩ | ⟨rfl, hread⟩
  · exact hinside below hread
  · exact hinside (below + 1) hread

/-- Every positive float has a point on the finest grid. -/
theorem exists_gridPoint? {x : Binary64} (hx : 0 < x.mantissa) (hexponent : -1074 ≤ x.exponent) :
    ∃ point, gridPoint? x finestGrid = some point := by
  unfold gridPoint?
  extract_lets unit step low here high inside below
  have hstep : step ≤ unit :=
    calc step = 2 ^ (2 - x.exponent).toNat := (Nat.shiftLeft_eq _ _).trans (Nat.one_mul _)
      _ ≤ 2 ^ 1076 := Nat.pow_le_pow_right (by decide) (by omega)
      _ ≤ Nat.pow 10 (-finestGrid).toNat := by decide +kernel
      _ ≤ unit := Nat.le_shiftLeft
  have hpos : 0 < step := Nat.shiftLeft_pos_iff.mpr (Nat.pow_pos (by decide))
  have hinside : inside below = true := by
    have hlow : low + unit ≤ here := by
      rw [← Nat.succ_mul]
      refine Nat.mul_le_mul_right _ ?_
      unfold quartersBelow
      split <;> omega
    have hhigh : here < high := Nat.mul_lt_mul_of_pos_right (by omega) (hpos.trans_le hstep)
    have hbelow : below * step ≤ here := Nat.div_mul_le_self _ _
    have habove : here < below * step + step := Nat.lt_div_mul_add hpos
    simp only [inside]
    split <;> rw [decide_eq_true_eq] <;> omega
  rw [hinside]
  cases inside (below + 1) with
  | false => exact ⟨below, rfl⟩
  | true =>
      split
      · next heq => cases heq
      · exact ⟨_, rfl⟩
      · exact ⟨_, rfl⟩
      · split
        · exact ⟨_, rfl⟩
        · split
          · exact ⟨_, rfl⟩
          · split <;> exact ⟨_, rfl⟩

theorem exists_coarsest? {x : Binary64} (hx : 0 < x.mantissa) (hexponent : -1074 ≤ x.exponent) :
    ∀ n, ∃ point k, coarsest? x n = some (point, k) ∧ 0 < point
  | 0 => by
      obtain ⟨point, hpoint⟩ := exists_gridPoint? hx hexponent
      refine ⟨point, finestGrid, ?_, gridPoint?_pos hx hpoint⟩
      rw [coarsest?, hpoint]
      rfl
  | n + 1 => by
      rw [coarsest?]
      cases hpoint : gridPoint? x (finestGrid + (n + 1 : Nat)) with
      | none => exact exists_coarsest? hx hexponent n
      | some point => exact ⟨point, _, rfl, gridPoint?_pos hx hpoint⟩

/-! ### Digits -/

theorem wellFormed_layOut (negative : Bool) {digits : List Digit} (hne : digits ≠ [])
    (hhead : digits.head? ≠ some 0) (k : Int) : (layOut negative digits k).WellFormed := by
  obtain ⟨first, rest, rfl⟩ := List.exists_cons_of_ne_nil hne
  have hleading {more : List Digit} : Digit.Leading (first :: more) :=
    Digit.leading_of_head? (List.cons_ne_nil _ _) hhead
  unfold layOut
  extract_lets point
  split
  · exact hleading
  · split
    · next hpoint =>
      obtain ⟨n, hn⟩ := Nat.exists_eq_succ_of_ne_zero (show point.toNat ≠ 0 by omega)
      rw [hn]
      exact hleading
    · split
      · exact ⟨List.cons_ne_nil _ _, fun heq => (List.cons.inj heq).2.symm⟩
      · exact hleading

/-- A finite float has a numeral, and one that a text may have. -/
theorem exists_ofFloat? {x : Float} (h : Floats.IsFinite x) :
    ∃ n, ofFloat? x = some n ∧ n.WellFormed := by
  obtain ⟨number, hnumber⟩ := Floats.isFinite_iff.mp h
  have hexponent : -1074 ≤ number.exponent := by
    unfold Binary64.ofFloat? at hnumber
    split at hnumber
    · cases hnumber
    · split at hnumber <;> cases hnumber
      · exact Int.le_refl _
      · change (-1074 : Int) ≤ (Binary64.exponentBits x : Int) - 1075
        omega
  rw [ofFloat?, hnumber]
  dsimp only
  split
  · exact ⟨_, rfl, List.cons_ne_nil _ _, fun heq => (List.cons.inj heq).2.symm⟩
  · next hmantissa =>
    obtain ⟨point, k, hcoarsest, hpos⟩ :=
      exists_coarsest? (Nat.pos_of_ne_zero hmantissa) hexponent 640
    rw [hcoarsest]
    exact ⟨_, rfl, wellFormed_layOut _ (Digit.ofNat_ne_nil point) (Digit.head?_ofNat hpos) k⟩

end Numeral
end Memograph
