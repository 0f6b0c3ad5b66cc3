import Memograph.Numeral

/-! The float that a numeral stands for. The leading digits that fit sixty-four bits form a
significand; it is converted to a float and then multiplied or divided by a power of ten, in float
arithmetic. So a numeral of at most fifteen digits and a small exponent is read exactly to nearest,
and a longer one may end a last place away from it. -/

namespace Memograph.Numeral

/-- The float nearest to a power of ten. -/
def powerOfTen (n : Nat) : Float := Float.ofScientific 1 false n

/-- Takes digits behind a significand while the result stays below `2 ^ 64`, and gives back the
digits left over. -/
def takeDigits (significand : Nat) : List Digit → Nat × List Digit
  | [] => (significand, [])
  | d :: rest =>
    if 10 * significand + d.val < UInt64.size then takeDigits (10 * significand + d.val) rest
    else (significand, d :: rest)

/-- Divides by a power of ten, in steps of at most `10 ^ 308`. -/
def scaleDown (x : Float) (n : Nat) : Float :=
  if n ≤ 308 then x / powerOfTen n
  else if x == 0 then x
  else scaleDown (x / powerOfTen 308) (n - 308)
termination_by n

/-- Multiplies by a power of ten; there is no result beyond the range of floats. -/
def scale? (x : Float) (exponent : Int) : Option Float :=
  if exponent < 0 then some (scaleDown x (-exponent).toNat)
  else if exponent ≤ 308 then
    let y := x * powerOfTen exponent.toNat
    if y.isInf then none else some y
  else if x == 0 then some x
  else none

/-- The significand of a numeral and the power of ten it is scaled by. -/
def significand (n : Numeral) : Nat × Int :=
  let (high, wholeLeft) := takeDigits 0 n.whole
  let (all, fractionLeft) := takeDigits high n.fraction
  (all, wholeLeft.length - (n.fraction.length - fractionLeft.length : Nat) + n.exponent.getD 0)

/-- The float that a numeral stands for; there is none beyond the range of floats. -/
def toFloat? (n : Numeral) : Option Float :=
  let (digits, exponent) := n.significand
  (scale? (Float.ofNat digits) exponent).map fun x => if n.negative then -x else x

end Memograph.Numeral
