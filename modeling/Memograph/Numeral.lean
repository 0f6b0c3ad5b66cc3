/-! Decimal numerals as they are written: a sign, the digits before and after the point, and an
exponent if there is one. A numeral keeps its digits apart from any number it may stand for, so an
integer, a count and a float can each be read from it by their own rule. -/

namespace Memograph

abbrev Digit := Fin 10

/-- A written number. -/
structure Numeral where
  negative : Bool
  whole : List Digit
  fraction : List Digit
  exponent : Option Int
  deriving DecidableEq, Repr

def Digit.ofChar? (c : Char) : Option Digit :=
  if h : c.isDigit then some ⟨c.toNat - 48, by
    simp only [Char.isDigit, Bool.and_eq_true, decide_eq_true_eq] at h
    have h9 : c.val.toNat ≤ 57 := h.2
    have : c.toNat = c.val.toNat := rfl
    omega⟩
  else none

def Digit.toChar (d : Digit) : Char := Nat.digitChar d.val

/-- The number that digits spell, put behind a number already read. -/
def Digit.spellFrom (start : Nat) (digits : List Digit) : Nat :=
  digits.foldl (fun n d => 10 * n + d.val) start

/-- The digits of a number, without zeros in front; zero is one digit. -/
def Digit.ofNat (n : Nat) : List Digit :=
  (Nat.toDigits 10 n).filterMap Digit.ofChar?

namespace Numeral

def ofInt (n : Int) : Numeral := ⟨decide (n < 0), Digit.ofNat n.natAbs, [], none⟩

def ofNat (n : Nat) : Numeral := ⟨false, Digit.ofNat n, [], none⟩

/-- Whether a numeral is written without a point and without an exponent. -/
def isInteger (n : Numeral) : Bool := n.fraction.isEmpty && n.exponent.isNone

/-- The number that the digits before the point spell. -/
def magnitude (n : Numeral) : Nat := Digit.spellFrom 0 n.whole

/-- The count below `2 ^ 64` that a numeral writes. A sign, a point or an exponent makes it
none. -/
def toCount? (n : Numeral) : Option Nat :=
  if n.isInteger && !n.negative && decide (n.magnitude < UInt64.size) then some n.magnitude
  else none

/-- The characters of an exponent: a lower-case mark, a sign even where it is a plus, and the
digits. -/
def exponentChars (e : Int) : List Char :=
  'e' :: (if e < 0 then '-' else '+') :: (Digit.ofNat e.natAbs).map Digit.toChar

def chars (n : Numeral) : List Char :=
  (if n.negative then ['-'] else []) ++ n.whole.map Digit.toChar ++
    (if n.fraction.isEmpty then [] else '.' :: n.fraction.map Digit.toChar) ++
    match n.exponent with
    | none => []
    | some e => exponentChars e

end Numeral
end Memograph
