/-! The exact value of a float, read off its bits. A finite float is its sign, a natural mantissa
and a power of two, and all questions about it, whether it is whole and which integer it is, are
asked of these three in exact arithmetic. -/

namespace Memograph

/-- The finite number `± mantissa * 2 ^ exponent`. -/
structure Binary64 where
  negative : Bool
  mantissa : Nat
  exponent : Int
  deriving DecidableEq, Repr

namespace Binary64

def signBit (x : Float) : Bool := x.toBits.toNat >>> 63 == 1

/-- The eleven exponent bits of a float. -/
def exponentBits (x : Float) : Nat := x.toBits.toNat >>> 52 % 2048

/-- The fifty-two fraction bits of a float. -/
def fractionBits (x : Float) : Nat := x.toBits.toNat % 1 <<< 52

/-- The exact value of a float; infinities and NaN have none. -/
def ofFloat? (x : Float) : Option Binary64 :=
  if exponentBits x = 2047 then none
  else if exponentBits x = 0 then some ⟨signBit x, fractionBits x, -1074⟩
  else some ⟨signBit x, 1 <<< 52 + fractionBits x, (exponentBits x : Int) - 1075⟩

def withSign (negative : Bool) (magnitude : Nat) : Int :=
  if negative then -(magnitude : Int) else magnitude

/-- The integer that this number is, if it is whole. -/
def toInt? (x : Binary64) : Option Int :=
  if 0 ≤ x.exponent then some (withSign x.negative (x.mantissa <<< x.exponent.toNat))
  else
    let unit : Nat := 1 <<< (-x.exponent).toNat
    if x.mantissa % unit = 0 then some (withSign x.negative (x.mantissa / unit)) else none

end Binary64
end Memograph
