import Memograph.Binary64
import Memograph.Numeral

/-! The shortest numeral of a float. The numbers that round to a float form an interval around it,
whose ends belong to it when the mantissa is even. Of the decimal grids the coarsest with a point
in that interval is taken, and of its points the nearest to the float, a tie going to the even
one. -/

namespace Memograph.Numeral

/-- How far below a float its interval reaches, in quarters of its last place: half a place, but a
quarter where the float is a power of two and the floats below it lie closer. -/
def quartersBelow (x : Binary64) : Nat :=
  if x.mantissa = 1 <<< 52 ∧ -1074 < x.exponent then 1 else 2

/-- The multiple of `10 ^ k` that reads back as this positive number and is nearest to it. -/
def gridPoint? (x : Binary64) (k : Int) : Option Nat :=
  let unit := Nat.pow 10 (-k).toNat <<< (x.exponent - 2).toNat
  let step := Nat.pow 10 k.toNat <<< (2 - x.exponent).toNat
  let low := (4 * x.mantissa - quartersBelow x) * unit
  let here := 4 * x.mantissa * unit
  let high := (4 * x.mantissa + 2) * unit
  let inside (point : Nat) : Bool :=
    if x.mantissa % 2 = 0 then decide (low ≤ point * step ∧ point * step ≤ high)
    else decide (low < point * step ∧ point * step < high)
  let below := here / step
  match inside below, inside (below + 1) with
  | false, false => none
  | true, false => some below
  | false, true => some (below + 1)
  | true, true =>
    if 2 * here < (2 * below + 1) * step then some below
    else if (2 * below + 1) * step < 2 * here then some (below + 1)
    else if below % 2 = 0 then some below
    else some (below + 1)

/-- The exponent of the finest grid that any float needs. -/
def finestGrid : Int := -325

/-- The point on the coarsest grid that reads back, from a given grid on towards finer ones, with
the exponent of its grid. -/
def coarsest? (x : Binary64) : Nat → Option (Nat × Int)
  | 0 => (gridPoint? x finestGrid).map fun point => (point, finestGrid)
  | n + 1 =>
    match gridPoint? x (finestGrid + (n + 1 : Nat)) with
    | some point => some (point, finestGrid + (n + 1 : Nat))
    | none => coarsest? x n

/-- Lays digits out with their last one at `10 ^ k`. The notation is positional, with at least one
digit on either side of the point, where the point falls at most sixteen places behind the first
digit or four zeros before it; otherwise one digit stands before the point. -/
def layOut (negative : Bool) (digits : List Digit) (k : Int) : Numeral :=
  let point : Int := digits.length + k
  if 0 ≤ k ∧ point ≤ 16 then
    ⟨negative, digits ++ List.replicate k.toNat 0, [0], none⟩
  else if 0 < point ∧ point ≤ 16 then
    ⟨negative, digits.take point.toNat, digits.drop point.toNat, none⟩
  else if -5 < point ∧ point ≤ 0 then
    ⟨negative, [0], List.replicate (-point).toNat 0 ++ digits, none⟩
  else
    ⟨negative, digits.take 1, digits.drop 1, some (point - 1)⟩

/-- The shortest numeral that stands for a finite float; infinities and NaN have none. -/
def ofFloat? (x : Float) : Option Numeral :=
  match Binary64.ofFloat? x with
  | none => none
  | some number =>
    if number.mantissa = 0 then some ⟨number.negative, [0], [0], none⟩
    else
      (coarsest? number 640).map fun (point, k) => layOut number.negative (Digit.ofNat point) k

end Memograph.Numeral
