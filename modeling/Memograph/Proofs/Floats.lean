import Mathlib
import Memograph.Binary64
import Memograph.Numeral.Floating

/-! Which floats are numbers. A float is finite unless all bits of its exponent are set. Rounding a
mantissa with digits enough gives a normal number whose exponent follows the leading digit, so the
floats of integers and of powers of ten are normal. The products and quotients by which a numeral is
read leave the finite floats for an infinite one at most, which the reader refuses; so every float
that a numeral is read as is finite, and an integer is zero exactly if its float is. -/

namespace Memograph

open Float.Model (Format UnpackedFloat)
open Float.Model.UnpackedFloat

namespace Floats

/-! ### Rounding -/

/-- Whether a float is a normal number whose exponent lies in a range. -/
def IsNormal (low high : Int) : UnpackedFloat → Prop
  | .finite _ mantissa exponent _ => mantissa.log2 = 52 ∧ low ≤ exponent ∧ exponent ≤ high
  | _ => False

instance (low high : Int) : DecidablePred (IsNormal low high)
  | .finite _ mantissa exponent _ =>
    inferInstanceAs (Decidable (mantissa.log2 = 52 ∧ low ≤ exponent ∧ exponent ≤ high))
  | .zero _ => inferInstanceAs (Decidable False)
  | .infinity _ => inferInstanceAs (Decidable False)
  | .notANumber => inferInstanceAs (Decidable False)

/-- Whether a float is zero or a number whose exponent has a bound. -/
def IsBounded (high : Int) : UnpackedFloat → Prop
  | .finite _ _ exponent _ => exponent ≤ high
  | .zero _ => True
  | _ => False

/-- Whether the mantissa of a float has fifty-three digits at most. -/
def IsShort : UnpackedFloat → Prop
  | .finite _ mantissa _ _ => mantissa.log2 ≤ 52
  | _ => True

theorem IsBounded.mono {low high : Int} {unpacked : UnpackedFloat} (h : IsBounded low unpacked)
    (hle : low ≤ high) : IsBounded high unpacked := by
  cases unpacked with
  | infinity sign => exact h
  | notANumber => exact h
  | zero sign => exact h
  | finite sign mantissa exponent hpos => exact le_trans h hle

theorem mantissa_shiftRight (extended : ExtendedMantissa) (n : Nat) :
    (extended >>> n).mantissa = extended.mantissa / 2 ^ n := by
  change (n.repeat ExtendedMantissa.shiftRightOne extended).mantissa = _
  induction n with
  | zero => simp [Nat.repeat]
  | succ n ih =>
      rw [Nat.repeat, ExtendedMantissa.shiftRightOne, ih, Nat.div_div_eq_div_mul, Nat.pow_succ]

theorem mantissa_ofMantissaAndAccuracy (mantissa : Nat) (accuracy : Accuracy) :
    (ExtendedMantissa.ofMantissaAndAccuracy mantissa accuracy).mantissa = mantissa := by
  unfold ExtendedMantissa.ofMantissaAndAccuracy
  split <;> rfl

/-- Rounding goes up by one at most. -/
theorem roundedMantissa_mem (extended : ExtendedMantissa) :
    extended.mantissa ≤ extended.roundedMantissa ∧
      extended.roundedMantissa ≤ extended.mantissa + 1 := by
  unfold ExtendedMantissa.roundedMantissa Accuracy.roundToNearestEven
  have := Nat.mod_lt extended.mantissa Nat.two_pos
  split <;> omega

/-- By how many digits a mantissa is too long for its exponent. -/
def excess (mantissa : Nat) (exponent : Int) : Nat :=
  (max (mantissa.log2 + 1 + exponent - 53) (-1074) - exponent).toNat

theorem shiftToTargetExponent_mantissa (mantissa : Nat) (exponent : Int) (accuracy : Accuracy) :
    (shiftToTargetExponent Format.binary64 mantissa exponent accuracy).1.mantissa =
      mantissa / 2 ^ excess mantissa exponent := by
  rw [shiftToTargetExponent, shiftToExponent, mantissa_shiftRight, mantissa_ofMantissaAndAccuracy]
  rfl

theorem shiftToTargetExponent_exponent (mantissa : Nat) (exponent : Int) (accuracy : Accuracy) :
    (shiftToTargetExponent Format.binary64 mantissa exponent accuracy).2 =
      exponent + excess mantissa exponent := rfl

/-- Rounding shifts the excess digits out, may add one, and shifts out what is then in excess. -/
theorem exists_rounded (sign : Sign) (mantissa : Nat) (exponent : Int) (accuracy : Accuracy) :
    ∃ rounded : Nat, mantissa / 2 ^ excess mantissa exponent ≤ rounded ∧
      rounded ≤ mantissa / 2 ^ excess mantissa exponent + 1 ∧
      let shifted := exponent + excess mantissa exponent
      let final := rounded / 2 ^ excess rounded shifted
      roundWithAccuracy Format.binary64 sign mantissa exponent accuracy =
        if h : final = 0 then .zero sign
        else .finite sign final (shifted + excess rounded shifted) (Nat.pos_of_ne_zero h) := by
  have hbounds := roundedMantissa_mem
    (shiftToTargetExponent Format.binary64 mantissa exponent accuracy).1
  rw [shiftToTargetExponent_mantissa] at hbounds
  refine ⟨_, hbounds.1, hbounds.2, ?_⟩
  simp only [roundWithAccuracy, shiftToTargetExponent_mantissa, shiftToTargetExponent_exponent]

/-- A mantissa with digits enough is shifted to fifty-three of them, and rounded up to one more at
most. -/
theorem isNormal_roundWithAccuracy (sign : Sign) {mantissa : Nat} (exponent : Int)
    (accuracy : Accuracy) (hdigits : 52 ≤ mantissa.log2)
    (hexponent : -1022 ≤ exponent + mantissa.log2) :
    IsNormal (exponent + mantissa.log2 - 52) (exponent + mantissa.log2 - 51)
      (roundWithAccuracy Format.binary64 sign mantissa exponent accuracy) := by
  obtain ⟨rounded, hlow, hhigh, hround⟩ := exists_rounded sign mantissa exponent accuracy
  obtain ⟨digits, hlog⟩ := Nat.exists_eq_add_of_le hdigits
  have hexcess : excess mantissa exponent = digits := by
    unfold excess
    omega
  have hpos : mantissa ≠ 0 := by
    rintro rfl
    simp at hdigits
  -- Fifty-three digits are left.
  have hkeptLow : 2 ^ 52 ≤ mantissa / 2 ^ digits := by
    rw [Nat.le_div_iff_mul_le (Nat.two_pow_pos _), ← Nat.pow_add, ← hlog]
    exact Nat.log2_self_le hpos
  have hkeptHigh : mantissa / 2 ^ digits < 2 ^ 53 := by
    rw [Nat.div_lt_iff_lt_mul (Nat.two_pow_pos _), ← Nat.pow_add, Nat.add_right_comm 52 1, ← hlog]
    exact Nat.lt_log2_self
  rw [hexcess] at hlow hhigh hround
  dsimp only at hround
  by_cases hcarry : rounded = 2 ^ 53
  · have hmore : excess rounded (exponent + digits) = 1 := by
      rw [excess, hcarry, Nat.log2_two_pow]
      omega
    rw [hmore, hcarry] at hround
    rw [hround, dif_neg (by decide)]
    refine ⟨by decide, ?_, ?_⟩ <;> omega
  · have hrounded : rounded.log2 = 52 :=
      (Nat.log2_eq_iff (by omega)).mpr ⟨by omega, by omega⟩
    have hmore : excess rounded (exponent + digits) = 0 := by
      rw [excess, hrounded]
      omega
    simp only [hmore, Nat.pow_zero, Nat.div_one] at hround
    rw [hround, dif_neg (by omega)]
    refine ⟨hrounded, ?_, ?_⟩ <;> omega

theorem isBounded_roundWithAccuracy (sign : Sign) (mantissa : Nat) (exponent : Int)
    (accuracy : Accuracy) :
    IsBounded (max (max exponent (exponent + mantissa.log2 - 51)) (-1074))
      (roundWithAccuracy Format.binary64 sign mantissa exponent accuracy) := by
  obtain ⟨rounded, -, hhigh, hround⟩ := exists_rounded sign mantissa exponent accuracy
  -- The quotient has so many digits less, and the rounded one has one more at most.
  have hlog : rounded.log2 ≤ mantissa.log2 - excess mantissa exponent + 1 := by
    generalize excess mantissa exponent = n at hhigh
    have hquotient : (mantissa / 2 ^ n).log2 ≤ mantissa.log2 - n := by
      by_cases hzero : mantissa / 2 ^ n = 0
      · simp [hzero]
      · have hle : 2 ^ ((mantissa / 2 ^ n).log2 + n) ≤ mantissa := by
          rw [Nat.pow_add, ← Nat.le_div_iff_mul_le (Nat.two_pow_pos n)]
          exact Nat.log2_self_le hzero
        have := (Nat.le_log2 (by rintro rfl; simp at hzero)).mpr hle
        omega
    have hlt : mantissa / 2 ^ n < 2 ^ ((mantissa / 2 ^ n).log2 + 1) := Nat.lt_log2_self
    by_cases hzero : rounded = 0
    · simp [hzero]
    · have hlt' : rounded < 2 ^ ((mantissa / 2 ^ n).log2 + 1 + 1) := by
        rw [Nat.pow_succ]
        omega
      have := (Nat.log2_lt hzero).mpr hlt'
      omega
  dsimp only at hround
  rw [hround]
  split
  · trivial
  · change _ ≤ _
    unfold excess at *
    omega

/-! ### Bits -/

/-- Whether a float is a number, and neither infinite nor NaN. -/
def IsFinite (x : Float) : Prop := Binary64.exponentBits x ≠ 2047

theorem isFinite_iff {x : Float} : IsFinite x ↔ ∃ exact, Binary64.ofFloat? x = some exact := by
  unfold IsFinite Binary64.ofFloat?
  split
  · next h => simp [h]
  · next h =>
    split <;> simp [h]

theorem exponentBits_eq (x : Float) :
    Binary64.exponentBits x =
      (@unpackExponent Format.binary64 x.toModel.toBits.toBitVec).toNat := by
  simp [unpackExponent, Binary64.exponentBits, Float.toBits]

theorem exponentBits_pack (unpacked : UnpackedFloat) :
    Binary64.exponentBits (.ofModel (.pack unpacked)) =
      (unpackExponent (pack Format.binary64 unpacked)).toNat := by
  rw [exponentBits_eq]
  rfl

theorem unpack_pack (unpacked : UnpackedFloat) :
    (Float.Model.pack unpacked).unpack =
      unpack Format.binary64 (pack Format.binary64 unpacked) := rfl

/-- A number is packed as a finite float unless its exponent is too large, and then as an infinite
one. -/
theorem isFinite_or_isInf_pack {unpacked : UnpackedFloat} {high : Int}
    (h : IsBounded high unpacked) :
    IsFinite (.ofModel (.pack unpacked)) ∨
      (971 < high ∧ (Float.ofModel (.pack unpacked)).isInf = true) := by
  rw [IsFinite, exponentBits_pack]
  cases unpacked with
  | infinity sign => cases h
  | notANumber => cases h
  | zero sign =>
      rw [pack, packedZero, unpackExponent_packComponents]
      exact Or.inl (by decide)
  | finite sign mantissa exponent hpos =>
      by_cases hover : 2047 ≤ (exponent + 1023 + 52).toNat
      · refine Or.inr ⟨lt_of_lt_of_le (by omega) h, ?_⟩
        have hpack : pack Format.binary64 (.finite sign mantissa exponent hpos) =
            packedInfinity Format.binary64 sign := if_pos (Nat.succ_le_succ hover)
        change (Float.Model.pack _).unpack.isInf = true
        rw [unpack_pack, hpack]
        cases sign <;> decide
      · refine Or.inl ?_
        have hfits : ¬2 ^ Format.binary64.exponentBits ≤ (exponent +
            Format.binary64.exponentBias +
              Format.binary64.mantissaBitsWithoutImplicit).toNat + 1 := by
          change ¬2048 ≤ (exponent + 1023 + 52).toNat + 1
          omega
        rw [pack]
        dsimp only
        rw [if_neg hfits]
        split
        · rw [unpackExponent_packComponents, BitVec.toNat_ofNat]
          change (exponent + 1023 + 52).toNat % 2048 ≠ 2047
          omega
        · rw [unpackExponent_packComponents]
          decide

/-- What a finite float is unpacked to. -/
theorem unpack_of_isFinite {x : Float} (h : IsFinite x) :
    IsBounded 971 x.toModel.unpack ∧ IsShort x.toModel.unpack := by
  rw [IsFinite, exponentBits_eq] at h
  rw [Float.Model.unpack, unpack]
  generalize hbits : x.toModel.toBits.toBitVec = bits at h
  have hexponent : (@unpackExponent Format.binary64 bits).toNat < 2 ^ 11 := BitVec.isLt _
  have hone : @unpackExponent Format.binary64 bits ≠ -1#11 :=
    fun heq => h (congrArg BitVec.toNat heq)
  have hshort {n : Nat} (hn : n < 2 ^ 53) : n.log2 ≤ 52 := by
    by_cases hzero : n = 0
    · simp [hzero]
    · exact Nat.le_of_lt_succ ((Nat.log2_lt hzero).mpr hn)
  rw [if_neg hone]
  split
  · next hzero =>
    split
    · exact ⟨trivial, trivial⟩
    · refine ⟨?_, hshort ?_⟩
      · rw [hzero]
        change ((0 : Nat) : Int) - (1023 + 52) + 1 ≤ 971
        omega
      · have : (@unpackMantissa Format.binary64 bits).toNat < 2 ^ 52 := BitVec.isLt _
        omega
  · refine ⟨?_, hshort (BitVec.isLt _)⟩
    change ((@unpackExponent Format.binary64 bits).toNat : Int) - (1023 + 52) ≤ 971
    omega

/-- Normal numbers are unpacked as they were packed. -/
theorem unpack_pack_of_isNormal {unpacked : UnpackedFloat} (h : IsNormal (-1074) 971 unpacked) :
    (Float.Model.pack unpacked).unpack = unpacked := by
  cases unpacked with
  | infinity sign => cases h
  | notANumber => cases h
  | zero sign => cases h
  | finite sign mantissa exponent hpos =>
      obtain ⟨hlog, hlow, hhigh⟩ := h
      obtain ⟨hleast, hmost⟩ := (Nat.log2_eq_iff hpos.ne').mp hlog
      obtain ⟨biased, hbiased⟩ := Int.eq_ofNat_of_zero_le (show 0 ≤ exponent + 1075 by omega)
      have hpack : pack Format.binary64 (.finite sign mantissa exponent hpos) =
          packComponents Format.binary64 sign (BitVec.ofNat 11 biased)
            (BitVec.ofNat 52 mantissa) := by
        have hsum : (exponent + Format.binary64.exponentBias +
            Format.binary64.mantissaBitsWithoutImplicit).toNat = biased := by
          change (exponent + 1023 + 52).toNat = biased
          omega
        have hfits : ¬2 ^ 11 ≤ biased + 1 := by omega
        rw [pack]
        dsimp only
        rw [hsum, if_neg hfits]
        exact if_pos (congrArg Nat.succ hlog)
      have hexponent : (BitVec.ofNat 11 biased).toNat = biased :=
        (BitVec.toNat_ofNat biased 11).trans (Nat.mod_eq_of_lt (by omega))
      have hone : BitVec.ofNat 11 biased ≠ -1#11 := by
        intro heq
        have := congrArg BitVec.toNat heq
        rw [hexponent] at this
        change biased = 2047 at this
        omega
      have hzero : BitVec.ofNat 11 biased ≠ 0#11 := by
        intro heq
        have := congrArg BitVec.toNat heq
        rw [hexponent] at this
        change biased = 0 at this
        omega
      have hmantissa : (1#1 ++ BitVec.ofNat 52 mantissa).toNat = mantissa := by
        rw [BitVec.toNat_append, ← Nat.shiftLeft_add_eq_or_of_lt (BitVec.isLt _),
          BitVec.toNat_ofNat, Nat.shiftLeft_eq]
        change 1 * 2 ^ 52 + mantissa % 2 ^ 52 = mantissa
        omega
      rw [unpack_pack, hpack, unpack]
      simp only [unpackExponent_packComponents, unpackMantissa_packComponents,
        unpackSign_packComponents, Sign.ofBitVec_toBitVec]
      rw [if_neg hone, if_neg hzero, UnpackedFloat.finite.injEq]
      refine ⟨rfl, hmantissa, ?_⟩
      rw [hexponent]
      change (biased : Int) - (1023 + 52) = exponent
      omega

/-! ### Arithmetic -/

theorem isFinite_neg {x : Float} (h : IsFinite x) : IsFinite (-x) := by
  have hbounded := (unpack_of_isFinite h).1
  have hneg : IsBounded 971 x.toModel.unpack.neg := by
    generalize x.toModel.unpack = unpacked at hbounded
    cases unpacked <;> exact hbounded
  exact (isFinite_or_isInf_pack hneg).resolve_right fun hover => by omega

theorem isFinite_mul {x y : Float} (hx : IsFinite x) (hy : IsFinite y)
    (hinf : (x * y).isInf = false) : IsFinite (x * y) := by
  have hbounded : ∃ high, IsBounded high
      (UnpackedFloat.mul Format.binary64 x.toModel.unpack y.toModel.unpack) := by
    have hleft := (unpack_of_isFinite hx).1
    have hright := (unpack_of_isFinite hy).1
    generalize x.toModel.unpack = left at hleft
    generalize y.toModel.unpack = right at hright
    cases left with
    | infinity sign => cases hleft
    | notANumber => cases hleft
    | zero sign =>
        cases right with
        | infinity sign => cases hright
        | notANumber => cases hright
        | zero sign => exact ⟨0, trivial⟩
        | finite sign mantissa exponent hpos => exact ⟨0, trivial⟩
    | finite sign mantissa exponent hpos =>
        cases right with
        | infinity sign => cases hright
        | notANumber => cases hright
        | zero sign => exact ⟨0, trivial⟩
        | finite sign mantissa exponent hpos => exact ⟨_, isBounded_roundWithAccuracy _ _ _ _⟩
  obtain ⟨high, hbounded⟩ := hbounded
  refine (isFinite_or_isInf_pack hbounded).resolve_right fun hover => ?_
  exact Bool.false_ne_true (hinf.symm.trans hover.2)

theorem log2_div_le (mantissa shift : Nat) {divisor : Nat} (hdivisor : divisor.log2 = 52) :
    (mantissa * 2 ^ shift / divisor).log2 + 52 ≤ max 52 (mantissa.log2 + shift) := by
  have hpos : divisor ≠ 0 := by
    rintro rfl
    simp at hdivisor
  have hleast : 2 ^ 52 ≤ divisor := ((Nat.log2_eq_iff hpos).mp hdivisor).1
  by_cases hzero : mantissa * 2 ^ shift / divisor = 0
  · simp [hzero]
  · have hle : 2 ^ ((mantissa * 2 ^ shift / divisor).log2 + 52) ≤ mantissa * 2 ^ shift :=
      calc 2 ^ ((mantissa * 2 ^ shift / divisor).log2 + 52)
          = 2 ^ (mantissa * 2 ^ shift / divisor).log2 * 2 ^ 52 := Nat.pow_add _ _ _
        _ ≤ mantissa * 2 ^ shift / divisor * divisor :=
            Nat.mul_le_mul (Nat.log2_self_le hzero) hleast
        _ ≤ mantissa * 2 ^ shift := Nat.div_mul_le_self _ _
    have hlt : mantissa * 2 ^ shift < 2 ^ (mantissa.log2 + 1 + shift) := by
      rw [Nat.pow_add]
      exact Nat.mul_lt_mul_of_pos_right Nat.lt_log2_self (Nat.two_pow_pos shift)
    have := (Nat.pow_lt_pow_iff_right Nat.one_lt_two).mp (hle.trans_lt hlt)
    omega

/-- A divisor of four at least makes no number infinite. -/
theorem isFinite_div {x y : Float} (hx : IsFinite x) (hy : IsNormal (-50) 971 y.toModel.unpack) :
    IsFinite (x / y) := by
  have hbounded : IsBounded 971
      (UnpackedFloat.div Format.binary64 x.toModel.unpack y.toModel.unpack) := by
    obtain ⟨hleft, hshort⟩ := unpack_of_isFinite hx
    generalize x.toModel.unpack = left at hleft hshort
    generalize y.toModel.unpack = right at hy
    cases right with
    | infinity sign => cases hy
    | notANumber => cases hy
    | zero sign => cases hy
    | finite sign divisor below hpos =>
        obtain ⟨hdivisor, hlow, -⟩ := hy
        cases left with
        | infinity sign => cases hleft
        | notANumber => cases hleft
        | zero sign => trivial
        | finite sign mantissa exponent hpos =>
            refine (isBounded_roundWithAccuracy _ _ _ _).mono ?_
            have hdigits := log2_div_le mantissa
              (exponent - below - min (exponent - below) (Format.binary64.targetExponent
                (Float.Model.totalExponent mantissa exponent -
                  Float.Model.totalExponent divisor below))).toNat hdivisor
            change exponent ≤ 971 at hleft
            change mantissa.log2 ≤ 52 at hshort
            have htarget : Format.binary64.targetExponent
                (Float.Model.totalExponent mantissa exponent -
                  Float.Model.totalExponent divisor below) ≤ 968 := by
              change max (((mantissa.log2 : Int) + 1 + exponent - (divisor.log2 + 1 + below)) - 53)
                (-1074) ≤ 968
              omega
            generalize Format.binary64.targetExponent _ = target at hdigits htarget ⊢
            rw [← Nat.shiftLeft_eq] at hdigits
            omega
  exact (isFinite_or_isInf_pack hbounded).resolve_right fun hover => by omega

/-! ### Whole numbers and powers of ten -/

theorem log2_shiftLeft {n : Nat} (hpos : 0 < n) (shift : Nat) :
    (n <<< shift).log2 = n.log2 + shift := by
  have hne : n <<< shift ≠ 0 := by
    rw [Nat.shiftLeft_eq]
    exact (Nat.mul_pos hpos (Nat.two_pow_pos shift)).ne'
  rw [Nat.log2_eq_iff hne, Nat.shiftLeft_eq, Nat.add_right_comm, Nat.pow_add, Nat.pow_add]
  exact ⟨Nat.mul_le_mul_right _ (Nat.log2_self_le hpos.ne'),
    Nat.mul_lt_mul_of_pos_right Nat.lt_log2_self (Nat.two_pow_pos shift)⟩

theorem IsNormal.mono {low high low' high' : Int} {unpacked : UnpackedFloat}
    (h : IsNormal low high unpacked) (hlow : low' ≤ low) (hhigh : high ≤ high') :
    IsNormal low' high' unpacked := by
  cases unpacked with
  | infinity sign => cases h
  | notANumber => cases h
  | zero sign => cases h
  | finite sign mantissa exponent hpos => exact ⟨h.1, hlow.trans h.2.1, h.2.2.trans hhigh⟩

/-- The product of mantissas of fifty-three digits has twice as many, or one less. -/
theorem IsNormal.mul {low₁ high₁ low₂ high₂ : Int} {left right : UnpackedFloat}
    (hleft : IsNormal low₁ high₁ left) (hright : IsNormal low₂ high₂ right)
    (hlow : -1074 ≤ low₁ + low₂ + 52) :
    IsNormal (low₁ + low₂ + 52) (high₁ + high₂ + 54)
      (UnpackedFloat.mul Format.binary64 left right) := by
  cases left with
  | infinity sign => cases hleft
  | notANumber => cases hleft
  | zero sign => cases hleft
  | finite sign₁ mantissa₁ exponent₁ hpos₁ =>
      cases right with
      | infinity sign => cases hright
      | notANumber => cases hright
      | zero sign => cases hright
      | finite sign₂ mantissa₂ exponent₂ hpos₂ =>
          obtain ⟨hlog₁, hlow₁, hhigh₁⟩ := hleft
          obtain ⟨hlog₂, hlow₂, hhigh₂⟩ := hright
          obtain ⟨hleast₁, hmost₁⟩ := (Nat.log2_eq_iff hpos₁.ne').mp hlog₁
          obtain ⟨hleast₂, hmost₂⟩ := (Nat.log2_eq_iff hpos₂.ne').mp hlog₂
          have hne : mantissa₁ * mantissa₂ ≠ 0 := (Nat.mul_pos hpos₁ hpos₂).ne'
          have hleast : 104 ≤ (mantissa₁ * mantissa₂).log2 :=
            (Nat.le_log2 hne).mpr (le_trans (by decide) (Nat.mul_le_mul hleast₁ hleast₂))
          have hmost : (mantissa₁ * mantissa₂).log2 < 106 :=
            (Nat.log2_lt hne).mpr (lt_of_lt_of_le (Nat.mul_lt_mul'' hmost₁ hmost₂) (by decide))
          exact (isNormal_roundWithAccuracy _ _ _ (by omega) (by omega)).mono (by omega) (by omega)

theorem unpack_mul_of_isNormal {x y : Float} {low₁ high₁ low₂ high₂ : Int}
    (hx : IsNormal low₁ high₁ x.toModel.unpack) (hy : IsNormal low₂ high₂ y.toModel.unpack)
    (hlow : -1074 ≤ low₁ + low₂ + 52) (hhigh : high₁ + high₂ + 54 ≤ 971) :
    IsNormal (low₁ + low₂ + 52) (high₁ + high₂ + 54) (x * y).toModel.unpack := by
  have hmul := hx.mul hy hlow
  change IsNormal _ _ (Float.Model.pack _).unpack
  rw [unpack_pack_of_isNormal (hmul.mono hlow hhigh)]
  exact hmul

/-- A positive integer times a power of ten keeps its leading digits, and may gain one in
rounding. -/
theorem isNormal_ofScientific {n e : Nat} (hpos : 0 < n) (he : e ≤ 2048) :
    IsNormal ((n * 10 ^ e).log2 - 52) ((n * 10 ^ e).log2 - 51)
      (UnpackedFloat.ofScientific Format.binary64 n e) := by
  have hlog : (n <<< 53 * 10 ^ e).log2 = (n * 10 ^ e).log2 + 53 := by
    rw [← log2_shiftLeft (Nat.mul_pos hpos (Nat.pow_pos (by decide))), Nat.shiftLeft_eq,
      Nat.shiftLeft_eq, Nat.mul_right_comm]
  have hscaled : UnpackedFloat.ofScientific Format.binary64 n e =
      roundWithAccuracy Format.binary64 .positive (n <<< 53 * 10 ^ e) (-53) .exact := by
    have hlarge : ¬(e : Int) > 2 ^ 11 := by omega
    have hsmall : ¬(e : Int) < -((2 ^ 11 : Int) + n.log2) := by omega
    rw [UnpackedFloat.ofScientific, dif_neg hpos.ne', if_neg hlarge, if_neg hsmall,
      if_pos (Int.natCast_nonneg e)]
    rfl
  rw [hscaled]
  exact (isNormal_roundWithAccuracy _ _ _ (by omega) (by omega)).mono (by omega) (by omega)

/-- An integer of fifty-three digits at most is kept. -/
theorem isNormal_ofUInt64 {n : UInt64} (hpos : 0 < n.toNat) (hlt : n.toNat < 2 ^ 53) :
    IsNormal (-52) 1 n.toFloat.toModel.unpack := by
  have hlog : n.toNat.log2 < 53 := (Nat.log2_lt hpos.ne').mpr hlt
  have hround : UnpackedFloat.ofUInt64 Format.binary64 n =
      roundWithAccuracy Format.binary64 .positive (n.toNat <<< (52 - n.toNat.log2))
        (-(52 - n.toNat.log2 : Nat)) .exact := by
    have hcompare : compare (n.toNat : Int) 0 = .gt := Int.compare_eq_gt.mpr (by omega)
    have hshift : ((0 : Int) - max ((n.toNat.log2 : Int) + 1 + 0 - 53) (-1074)).toNat =
        52 - n.toNat.log2 := by omega
    rw [UnpackedFloat.ofUInt64, UnpackedFloat.ofNat, UnpackedFloat.ofInt, UnpackedFloat.normalize,
      hcompare]
    change roundWithAccuracy Format.binary64 .positive
      (n.toNat <<< ((0 : Int) - max ((n.toNat.log2 : Int) + 1 + 0 - 53) (-1074)).toNat)
      (0 - (((0 : Int) - max ((n.toNat.log2 : Int) + 1 + 0 - 53) (-1074)).toNat : Int)) .exact = _
    rw [hshift, Int.zero_sub]
  have hshifted := log2_shiftLeft hpos (52 - n.toNat.log2)
  have hnormal : IsNormal (-52) 1 (UnpackedFloat.ofUInt64 Format.binary64 n) := by
    rw [hround]
    exact (isNormal_roundWithAccuracy _ _ _ (by omega) (by omega)).mono (by omega) (by omega)
  change IsNormal _ _ (Float.Model.pack _).unpack
  rw [unpack_pack_of_isNormal (hnormal.mono (by decide) (by decide))]
  exact hnormal

/-- A positive integer of sixty-four bits becomes a normal float, not less than one. -/
theorem isNormal_ofNat {n : Nat} (hpos : 0 < n) (hlt : n < 2 ^ 64) :
    IsNormal (-52) 20 (Float.ofNat n).toModel.unpack := by
  -- A number of fifty-three digits at most is multiplied with one, and a longer one is rounded.
  by_cases hexact : n < 2 ^ 53
  · have heq : Float.ofNat n = n.toUInt64.toFloat * Float.ofBits 0x3ff0000000000000 := by
      change Float.ofScientific n false 0 = _
      unfold Float.ofScientific
      rw [dif_pos ⟨hexact, Nat.zero_le 22⟩]
      rfl
    have hone : IsNormal (-52) (-52) (Float.ofBits 0x3ff0000000000000).toModel.unpack := by
      decide +kernel
    have htoNat : n.toUInt64.toNat = n := Nat.mod_eq_of_lt hlt
    have hint : IsNormal (-52) 1 n.toUInt64.toFloat.toModel.unpack :=
      isNormal_ofUInt64 (by omega) (by omega)
    rw [heq]
    exact (unpack_mul_of_isNormal hint hone (by decide) (by decide)).mono (by decide) (by decide)
  · have heq : Float.ofNat n = .ofModel (.ofScientific n 0) := by
      change Float.ofScientific n false 0 = _
      unfold Float.ofScientific
      rw [dif_neg fun h => hexact h.1]
      rfl
    have hlow : 53 ≤ n.log2 := (Nat.le_log2 hpos.ne').mpr (by omega)
    have hhigh : n.log2 < 64 := (Nat.log2_lt hpos.ne').mpr hlt
    have hnormal := isNormal_ofScientific (e := 0) hpos (by decide)
    rw [Nat.pow_zero, Nat.mul_one] at hnormal
    rw [heq]
    change IsNormal _ _ (Float.Model.pack _).unpack
    rw [unpack_pack_of_isNormal]
    · exact hnormal.mono (by omega) (by omega)
    · exact hnormal.mono (by omega) (by omega)

theorem isNormal_powerOfTen {n : Nat} (hpos : 0 < n) (hle : n ≤ 308) :
    IsNormal (-50) 971 (Numeral.powerOfTen n).toModel.unpack := by
  -- Powers up to `10 ^ 22` come from a table, and the digits of the last one leave too much room
  -- for the exponent, so these are looked at one by one.
  by_cases hsmall : n ≤ 22
  · have hall : ∀ n < 23, 0 < n →
        IsNormal (-50) 971 (Numeral.powerOfTen n).toModel.unpack := by
      decide +kernel
    exact hall n (by omega) hpos
  by_cases hlast : n = 308
  · rw [hlast]
    decide +kernel
  · have heq : Numeral.powerOfTen n = .ofModel (.ofScientific 1 n) := by
      change Float.ofScientific 1 false n = _
      unfold Float.ofScientific
      rw [dif_neg fun h => hsmall h.2]
      rfl
    have hne : 10 ^ n ≠ 0 := (Nat.pow_pos (by decide)).ne'
    have hlow : 2 ≤ (10 ^ n).log2 :=
      (Nat.le_log2 hne).mpr (le_trans (by decide) (Nat.pow_le_pow_right (by decide) hpos))
    have hhigh : (10 ^ n).log2 < 1021 :=
      (Nat.log2_lt hne).mpr (lt_of_le_of_lt
        (Nat.pow_le_pow_right (by decide) (show n ≤ 307 by omega)) (by decide +kernel))
    have hnormal := isNormal_ofScientific (n := 1) (e := n) (by decide) (by omega)
    rw [Nat.one_mul] at hnormal
    rw [heq]
    change IsNormal _ _ (Float.Model.pack _).unpack
    rw [unpack_pack_of_isNormal]
    · exact hnormal.mono (by omega) (by omega)
    · exact hnormal.mono (by omega) (by omega)

/-! ### Zero -/

theorem unpack_neg_of_isNormal {x : Float} (h : IsNormal (-1074) 971 x.toModel.unpack) :
    IsNormal (-1074) 971 (-x).toModel.unpack := by
  have hneg : IsNormal (-1074) 971 x.toModel.unpack.neg := by
    generalize x.toModel.unpack = unpacked at h
    cases unpacked <;> exact h
  change IsNormal _ _ (Float.Model.pack _).unpack
  rw [unpack_pack_of_isNormal hneg]
  exact hneg

theorem beq_zero_of_isNormal {x : Float} {low high : Int} (h : IsNormal low high x.toModel.unpack) :
    (x == 0) = false := by
  have hzero : (0 : Float).toModel.unpack = .zero .positive := by rfl
  change UnpackedFloat.beq x.toModel.unpack (0 : Float).toModel.unpack = false
  rw [hzero]
  generalize x.toModel.unpack = unpacked at h
  cases unpacked with
  | infinity sign => cases h
  | notANumber => cases h
  | zero sign => cases h
  | finite sign mantissa exponent hpos => cases sign <;> rfl

/-- Only zero becomes the float that is zero. -/
theorem ofInt_beq_zero_iff {n : Int64} : (Float.ofInt n.toInt == 0) = true ↔ n = 0 := by
  constructor
  · intro h
    by_contra hne
    have hint : n.toInt ≠ 0 := fun heq => hne (Int64.toInt_inj.mp heq)
    have hlow := n.le_toInt
    have hhigh := n.toInt_lt
    refine Bool.false_ne_true (Eq.trans (Eq.symm ?_) h)
    cases hn : n.toInt with
    | ofNat m =>
        have hpos : 0 < m := by
          refine Nat.pos_of_ne_zero fun heq => hint ?_
          rw [hn, heq]
          rfl
        have hlt : m < 2 ^ 64 := by
          rw [hn, Int.ofNat_eq_natCast] at hhigh
          omega
        exact beq_zero_of_isNormal (isNormal_ofNat hpos hlt)
    | negSucc m =>
        have hnormal := isNormal_ofNat m.succ_pos (by omega)
        exact beq_zero_of_isNormal
          (unpack_neg_of_isNormal (hnormal.mono (by decide) (by decide)))
  · rintro rfl
    decide +kernel

/-! ### Numerals -/

theorem isFinite_of_unpack {x : Float} {high : Int} (h : IsBounded high x.toModel.unpack) :
    IsFinite x := by
  intro heq
  rw [exponentBits_eq] at heq
  have hone : @unpackExponent Format.binary64 x.toModel.toBits.toBitVec = -1#11 :=
    BitVec.eq_of_toNat_eq heq
  rw [Float.Model.unpack, unpack, if_pos hone] at h
  split at h <;> exact h

theorem IsNormal.isBounded {low high : Int} {unpacked : UnpackedFloat}
    (h : IsNormal low high unpacked) : IsBounded high unpacked := by
  cases unpacked with
  | infinity sign => cases h
  | notANumber => cases h
  | zero sign => cases h
  | finite sign mantissa exponent hpos => exact h.2.2

theorem isFinite_ofNat {n : Nat} (hlt : n < 2 ^ 64) : IsFinite (Float.ofNat n) := by
  by_cases hzero : n = 0
  · rw [hzero]
    change Binary64.exponentBits _ ≠ 2047
    decide +kernel
  · exact isFinite_of_unpack (isNormal_ofNat (Nat.pos_of_ne_zero hzero) hlt).isBounded

theorem isFinite_powerOfTen {n : Nat} (hle : n ≤ 308) : IsFinite (Numeral.powerOfTen n) := by
  by_cases hzero : n = 0
  · rw [hzero]
    change Binary64.exponentBits _ ≠ 2047
    decide +kernel
  · exact isFinite_of_unpack (isNormal_powerOfTen (Nat.pos_of_ne_zero hzero) hle).isBounded

theorem isFinite_div_powerOfTen {x : Float} {n : Nat} (hx : IsFinite x) (hpos : 0 < n)
    (hle : n ≤ 308) : IsFinite (x / Numeral.powerOfTen n) :=
  isFinite_div hx (isNormal_powerOfTen hpos hle)

theorem isFinite_scaleDown {x : Float} {n : Nat} (hx : IsFinite x) (hpos : 0 < n) :
    IsFinite (Numeral.scaleDown x n) := by
  fun_induction Numeral.scaleDown x n with
  | case1 x n hle => exact isFinite_div_powerOfTen hx hpos hle
  | case2 x n hle hzero => exact hx
  | case3 x n hle hzero ih =>
      exact ih (isFinite_div_powerOfTen hx (by decide) (Nat.le_refl 308)) (by omega)

theorem isFinite_of_scale? {x y : Float} {exponent : Int} (hx : IsFinite x)
    (h : Numeral.scale? x exponent = some y) : IsFinite y := by
  unfold Numeral.scale? at h
  split at h
  · cases h
    exact isFinite_scaleDown hx (by omega)
  · split at h
    · dsimp only at h
      split at h
      · cases h
      · next hinf =>
        cases h
        exact isFinite_mul hx (isFinite_powerOfTen (by omega)) (Bool.eq_false_iff.mpr hinf)
    · split at h
      · cases h
        exact hx
      · cases h

theorem takeDigits_lt {significand : Nat} (digits : List Digit) (h : significand < UInt64.size) :
    (Numeral.takeDigits significand digits).1 < UInt64.size := by
  induction digits generalizing significand with
  | nil => exact h
  | cons d rest ih =>
      rw [Numeral.takeDigits]
      split
      · next hlt => exact ih hlt
      · exact h

/-- A numeral that is read as a float is read as a finite one. -/
theorem isFinite_of_toFloat? {n : Numeral} {x : Float} (h : n.toFloat? = some x) : IsFinite x := by
  have hdigits : n.significand.1 < 2 ^ 64 := takeDigits_lt _ (takeDigits_lt _ (by decide))
  obtain ⟨y, hscale, heq⟩ := Option.map_eq_some_iff.mp h
  have hy := isFinite_of_scale? (isFinite_ofNat hdigits) hscale
  split at heq
  · exact heq ▸ isFinite_neg hy
  · exact heq ▸ hy

end Floats
end Memograph
