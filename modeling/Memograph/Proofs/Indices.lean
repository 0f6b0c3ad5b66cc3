import Mathlib.Data.Rat.Cast.CharZero
import Mathlib.Tactic.FieldSimp
import Memograph.Expr.Evaluation

/-! Indices. The index that a value is, is read off one number: that of the value, or of the only
item of a vector. An integer is its own index. A float is read exactly, as a rational, and is an
index if that is whole; where it lies beyond the integers of sixty-four bits the nearest of these is
taken for it. So floats beyond one end all come to the same index, and this is the only way for two
numbers to share one. -/

namespace Memograph

namespace Binary64

/-- The rational that a finite float is. -/
def toRat (x : Binary64) : ℚ := (withSign x.negative x.mantissa : ℚ) * 2 ^ x.exponent

theorem withSign_mul (negative : Bool) (m n : Nat) :
    withSign negative (m * n) = withSign negative m * n := by
  cases negative <;> simp [withSign]

theorem dvd_withSign_iff {negative : Bool} {m n : Nat} :
    (n : Int) ∣ withSign negative m ↔ m % n = 0 := by
  rw [← Nat.dvd_iff_mod_eq_zero, ← Int.natCast_dvd_natCast]
  cases negative <;> simp [withSign]

/-- A finite float is taken for the integer that it is. -/
theorem toInt?_eq_some_iff {x : Binary64} {n : Int} : x.toInt? = some n ↔ x.toRat = n := by
  unfold toInt? toRat
  split
  · next h =>
    obtain ⟨k, hk⟩ := Int.eq_ofNat_of_zero_le h
    rw [hk, Int.toNat_natCast, Option.some.injEq, Nat.shiftLeft_eq, withSign_mul, zpow_natCast]
    norm_cast
  · next h =>
    obtain ⟨k, hk⟩ := Int.eq_ofNat_of_zero_le (show 0 ≤ -x.exponent by omega)
    have hexponent : x.exponent = -(k : Int) := by omega
    have hrat : (withSign x.negative x.mantissa : ℚ) * (2 ^ k)⁻¹ = n ↔
        withSign x.negative x.mantissa = n * (2 ^ k : Nat) := by
      rw [mul_inv_eq_iff_eq_mul₀ (pow_ne_zero k two_ne_zero)]
      norm_cast
    rw [hexponent, neg_neg, Int.toNat_natCast, Nat.shiftLeft_eq, one_mul, zpow_neg, zpow_natCast,
      hrat]
    dsimp only
    have hunit : ((2 ^ k : Nat) : Int) ≠ 0 := Int.natCast_ne_zero.mpr (Nat.two_pow_pos k).ne'
    split
    · next hwhole =>
      have hsplit : withSign x.negative x.mantissa =
          withSign x.negative (x.mantissa / 2 ^ k) * (2 ^ k : Nat) := by
        rw [← withSign_mul, Nat.div_mul_cancel (Nat.dvd_of_mod_eq_zero hwhole)]
      rw [hsplit, Option.some.injEq, mul_left_inj' hunit]
    · next hbroken =>
      refine ⟨nofun, fun heq => ?_⟩
      exact absurd (dvd_withSign_iff.mp ⟨n, heq.trans (mul_comm _ _)⟩) hbroken

end Binary64

/-- The integer of sixty-four bits that is nearest to an integer. -/
def nearest (n : Int) : Int := max Int64.minValue.toInt (min n Int64.maxValue.toInt)

theorem toInt_ofIntClamp (n : Int) : (Int64.ofIntClamp n).toInt = nearest n := by
  have hle : Int64.minValue.toInt ≤ Int64.maxValue.toInt := by decide
  unfold Int64.ofIntClamp nearest
  split
  · next hlow =>
    split
    · next hhigh => rw [Int64.toInt_ofIntLE, min_eq_left hhigh, max_eq_right hlow]
    · next hhigh => rw [min_eq_right (by omega), max_eq_right hle]
  · next hlow => rw [max_eq_left (by omega)]

theorem nearest_toInt (i : Int64) : nearest i.toInt = i.toInt := by
  rw [nearest, min_eq_left i.toInt_le, max_eq_right i.minValue_le_toInt]

/-- Two integers have one nearest index only if they are the same or lie at one end. -/
theorem eq_or_beyond_of_nearest_eq {m n : Int} (h : nearest m = nearest n) :
    m = n ∨ (Int64.maxValue.toInt ≤ m ∧ Int64.maxValue.toInt ≤ n) ∨
      (m ≤ Int64.minValue.toInt ∧ n ≤ Int64.minValue.toInt) := by
  have hle : Int64.minValue.toInt < Int64.maxValue.toInt := by decide
  unfold nearest at h
  omega

namespace Value

/-- The number of a value: that of a number, and that of the only item of a vector. -/
inductive Denotes : Value → ℚ → Prop where
  | int (n : Int64) : Denotes (.scalar (.int n)) n.toInt
  | float {x : Float} {exact : Binary64} (h : Binary64.ofFloat? x = some exact) :
      Denotes (.scalar (.float x)) exact.toRat
  | only {item : Value} {number : ℚ} (h : Denotes item number) : Denotes (.array [item]) number

theorem Denotes.unique {value : Value} {number other : ℚ} (h : value.Denotes number)
    (hother : value.Denotes other) : number = other := by
  induction h with
  | int n => cases hother; rfl
  | float h =>
      cases hother with
      | float hexact =>
          rw [h] at hexact
          cases hexact
          rfl
  | only h ih =>
      cases hother with
      | only hitem => exact ih hitem

theorem asIndex_float_eq_ok_iff {x : Float} {i : Int64} :
    (Scalar.float x).asIndex = .ok i ↔
      ∃ n : Int, (Value.scalar (.float x)).Denotes n ∧ i.toInt = nearest n := by
  have hdenotes (n : Int) : (Value.scalar (.float x)).Denotes n ↔
      (Binary64.ofFloat? x).bind Binary64.toInt? = some n := by
    rw [Option.bind_eq_some_iff]
    constructor
    · intro h
      generalize hnumber : (n : ℚ) = number at h
      cases h with
      | float h => exact ⟨_, h, Binary64.toInt?_eq_some_iff.mpr hnumber.symm⟩
    · rintro ⟨exact, hexact, hn⟩
      rw [← Binary64.toInt?_eq_some_iff.mp hn]
      exact .float hexact
  simp only [hdenotes, Scalar.asIndex]
  split
  · next n heq =>
    simp only [heq, Option.some.injEq, exists_eq_left', Except.ok.injEq]
    rw [← Int64.toInt_inj, toInt_ofIntClamp, eq_comm]
  · next heq => simp [heq]

/-- A value is an index exactly if its number is whole, and then the one nearest to the number. -/
theorem asIndex_eq_ok_iff {i : Int64} : ∀ {value : Value},
    value.asIndex = .ok i ↔ ∃ n : Int, value.Denotes n ∧ i.toInt = nearest n
  | .scalar (.int k) => by
      rw [asIndex, Scalar.asIndex, Except.ok.injEq]
      constructor
      · rintro rfl
        exact ⟨k.toInt, .int k, (nearest_toInt k).symm⟩
      · rintro ⟨n, hn, hi⟩
        have heq : (k.toInt : ℚ) = n := (Denotes.int k).unique hn
        rw [← Int.cast_injective heq, nearest_toInt] at hi
        exact (Int64.toInt_inj.mp hi).symm
  | .scalar (.float x) => by rw [asIndex, asIndex_float_eq_ok_iff]
  | .array [item] => by
      rw [asIndex, asIndexOfItems, asIndex_eq_ok_iff]
      refine exists_congr fun n => and_congr_left fun _ => ⟨.only, fun h => ?_⟩
      cases h with
      | only hitem => exact hitem
  | .array [] => by
      refine ⟨nofun, ?_⟩
      rintro ⟨n, hn, -⟩
      cases hn
  | .array (_ :: _ :: _) => by
      refine ⟨nofun, ?_⟩
      rintro ⟨n, hn, -⟩
      cases hn

/-- What is selected lies at the number of the index, since no vector is so long that the last of
the integers of sixty-four bits has an item. -/
theorem denotes_of_select {index item : Value} {i : Int64} {items : List Value}
    (h : index.asIndex = .ok i) (hlength : items.length ≤ Int64.maxValue.toInt)
    (hselect : (Value.array items).select i = .ok item) :
    index.Denotes i.toInt ∧ items[i.toInt.toNat]? = some item := by
  rw [select] at hselect
  split at hselect
  · cases hselect
  · next hnonneg =>
    cases hitem : items[i.toInt.toNat]? with
    | none =>
        rw [hitem] at hselect
        cases hselect
    | some found =>
        rw [hitem] at hselect
        cases hselect
        refine ⟨?_, rfl⟩
        have hlt := (List.getElem?_eq_some_iff.mp hitem).1
        obtain ⟨n, hn, hi⟩ := asIndex_eq_ok_iff.mp h
        have heq : n = i.toInt := by
          have hmin : Int64.minValue.toInt < 0 := by decide
          unfold nearest at hi
          omega
        exact heq ▸ hn

end Value

namespace Expr

variable {π : Type}

/-- The item of a target at the index that a value is. -/
def itemAt (resolution : Resolution) (target : Expr) (index : Value) : Body π Value := do
  let position ← Body.ofExcept index.asIndex
  match globalName? resolution target with
  | some qualified => Body.value (.request (.read qualified (some position)))
  | none => do
    let value ← evaluate resolution target
    Body.ofExcept (value.select position)

theorem evaluate_item (resolution : Resolution) (target index : Expr) :
    (evaluate resolution (.item target index) : Body π Value) =
      evaluate resolution index >>= itemAt resolution target := by
  rw [evaluate]
  rfl

theorem itemAt_of_asIndex {resolution : Resolution} {target : Expr} {index : Value} {i : Int64}
    (h : index.asIndex = .ok i) :
    (itemAt resolution target index : Body π Value) =
      match globalName? resolution target with
      | some qualified => Body.value (.request (.read qualified (some i)))
      | none => evaluate resolution target >>= fun value => Body.ofExcept (value.select i) := by
  rw [itemAt, h]
  rfl

/-- A value is an index exactly if its number is whole, and then the nearest one. So where an item
of a variable is asked for, two values with one index have one number, or numbers that both lie at
or beyond the same end; and where an item of a vector is taken, it is the one at the number. -/
theorem indices_nearest (π : Type) (resolution : Resolution) (target : Expr) :
    (∀ (index : Value) (i : Int64), index.asIndex = .ok i ↔
      ∃ n : Int, index.Denotes n ∧ i.toInt = nearest n) ∧
    (∀ index : Expr, (evaluate resolution (.item target index) : Body π Value) =
      evaluate resolution index >>= itemAt resolution target) ∧
    (∀ name, globalName? resolution target = some name → ∀ (left right : Value) (i : Int64),
      left.asIndex = .ok i → right.asIndex = .ok i →
        (itemAt resolution target left : Body π Value) =
          Body.value (.request (.read name (some i))) ∧
        ∀ m n : Int, left.Denotes m → right.Denotes n →
          m = n ∨ (Int64.maxValue.toInt ≤ m ∧ Int64.maxValue.toInt ≤ n) ∨
            (m ≤ Int64.minValue.toInt ∧ n ≤ Int64.minValue.toInt)) ∧
    (globalName? resolution target = none → ∀ (index : Value) (i : Int64), index.asIndex = .ok i →
      (itemAt resolution target index : Body π Value) =
        evaluate resolution target >>= (fun value => Body.ofExcept (value.select i)) ∧
      ∀ (items : List Value) (item : Value), items.length ≤ Int64.maxValue.toInt →
        (Value.array items).select i = .ok item →
          index.Denotes i.toInt ∧ items[i.toInt.toNat]? = some item) := by
  refine ⟨fun index i => Value.asIndex_eq_ok_iff, evaluate_item resolution target, ?_, ?_⟩
  · intro name hname left right i hleft hright
    refine ⟨by rw [itemAt_of_asIndex hleft, hname], fun m n hm hn => ?_⟩
    -- Both numbers have the index for their nearest one.
    have hnearest {value : Value} {k : Int} (hindex : value.asIndex = .ok i)
        (hk : value.Denotes k) : nearest k = i.toInt := by
      obtain ⟨whole, hwhole, hi⟩ := Value.asIndex_eq_ok_iff.mp hindex
      rw [Int.cast_injective (hk.unique hwhole), hi]
    exact eq_or_beyond_of_nearest_eq ((hnearest hleft hm).trans (hnearest hright hn).symm)
  · intro hname index i hindex
    refine ⟨by rw [itemAt_of_asIndex hindex, hname], fun items item hlength hselect => ?_⟩
    exact Value.denotes_of_select hindex hlength hselect

/-- The least float beyond the integers of sixty-four bits. -/
def firstBeyond : Value := .float (Float.ofBits 0x43e0000000000000)

/-- It is another number than the greatest of these integers, and asks for the same item. -/
theorem indices_nearest_beyond :
    globalName? (.topLevel .root) (.name "v") = some ⟨.root, "v"⟩ ∧
    (Value.array [firstBeyond]).asIndex = .ok Int64.maxValue ∧
    (Value.int Int64.maxValue).asIndex = .ok Int64.maxValue ∧
    (itemAt (.topLevel .root) (.name "v") (.array [firstBeyond]) : Body Empty Value) =
      Body.value (.request (.read ⟨.root, "v"⟩ (some Int64.maxValue))) ∧
    (itemAt (.topLevel .root) (.name "v") (.int Int64.maxValue) : Body Empty Value) =
      Body.value (.request (.read ⟨.root, "v"⟩ (some Int64.maxValue))) ∧
    ∃ n : Int, (Value.array [firstBeyond]).Denotes n ∧ n ≠ Int64.maxValue.toInt ∧
      Int64.maxValue.toInt ≤ n := by
  have hname : globalName? (.topLevel .root) (.name "v") = some ⟨.root, "v"⟩ := by decide +kernel
  have hfloat : (Value.array [firstBeyond]).asIndex = .ok Int64.maxValue := by decide +kernel
  have hint : (Value.int Int64.maxValue).asIndex = .ok Int64.maxValue := by decide +kernel
  have hexact : Binary64.ofFloat? (Float.ofBits 0x43e0000000000000) =
      some ⟨false, 1 <<< 52, 11⟩ := by
    decide +kernel
  have hdenotes : (Value.array [firstBeyond]).Denotes ((2 ^ 63 : Int) : ℚ) := by
    have hrat : Binary64.toRat ⟨false, 1 <<< 52, 11⟩ = ((2 ^ 63 : Int) : ℚ) :=
      Binary64.toInt?_eq_some_iff.mp (by decide +kernel)
    rw [← hrat]
    exact .only (.float hexact)
  obtain ⟨-, -, hslots, -⟩ := indices_nearest Empty (.topLevel .root) (.name "v")
  obtain ⟨hleft, hends⟩ := hslots _ hname _ _ _ hfloat hint
  refine ⟨hname, hfloat, hint, hleft, (hslots _ hname _ _ _ hint hfloat).1, 2 ^ 63, hdenotes, ?_⟩
  rcases hends _ _ hdenotes (.int Int64.maxValue) with heq | ⟨hbeyond, -⟩ | ⟨-, hbefore⟩
  · exact absurd heq (by decide)
  · exact ⟨by decide, hbeyond⟩
  · exact absurd hbefore (by decide)

end Expr
end Memograph
