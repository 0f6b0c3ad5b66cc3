import Memograph.Json.Token

/-! Numerals as they are written in a text. The digits of a number spell the number, and a numeral
whose digits before the point stand as a text has them is scanned as it was written. -/

namespace Memograph

namespace Digit

/-- Whether digits may stand before the point: there is at least one, and a zero stands alone. -/
structure Leading (digits : List Digit) : Prop where
  nonempty : digits ≠ []
  alone : ∀ {rest}, digits = 0 :: rest → rest = []

theorem ofChar?_toChar : ∀ d : Digit, ofChar? d.toChar = some d := by decide

theorem spellFrom_append (start : Nat) (digits more : List Digit) :
    spellFrom start (digits ++ more) = spellFrom (spellFrom start digits) more :=
  List.foldl_append

theorem ofNat_of_lt {n : Nat} (h : n < 10) : ofNat n = [⟨n, h⟩] := by
  rw [ofNat, Nat.toDigits_of_lt_base h]
  exact congrArg Option.toList (ofChar?_toChar ⟨n, h⟩)

theorem ofNat_of_le {n : Nat} (h : 10 ≤ n) :
    ofNat n = ofNat (n / 10) ++ [⟨n % 10, Nat.mod_lt n (by decide)⟩] := by
  rw [ofNat, Nat.toDigits_of_base_le (by decide) h, List.filterMap_append]
  exact congrArg (ofNat (n / 10) ++ ·)
    (congrArg Option.toList (ofChar?_toChar ⟨n % 10, Nat.mod_lt n (by decide)⟩))

/-- The digits of a number spell it. -/
theorem spellFrom_ofNat (n : Nat) : spellFrom 0 (ofNat n) = n := by
  induction n using Nat.strongRecOn with
  | ind n ih =>
      by_cases hlt : n < 10
      · rw [ofNat_of_lt hlt]
        exact Nat.zero_add n
      · rw [ofNat_of_le (Nat.not_lt.mp hlt), spellFrom_append, ih (n / 10) (by omega)]
        exact Nat.div_add_mod n 10

theorem ofNat_ne_nil (n : Nat) : ofNat n ≠ [] := by
  by_cases hlt : n < 10
  · rw [ofNat_of_lt hlt]
    exact List.cons_ne_nil _ _
  · rw [ofNat_of_le (Nat.not_lt.mp hlt)]
    exact List.append_ne_nil_of_right_ne_nil _ (List.cons_ne_nil _ _)

theorem head?_ofNat {n : Nat} (h : 0 < n) : (ofNat n).head? ≠ some 0 := by
  induction n using Nat.strongRecOn with
  | ind n ih =>
      by_cases hlt : n < 10
      · rw [ofNat_of_lt hlt]
        intro heq
        exact Nat.ne_of_gt h (congrArg Fin.val (Option.some.inj heq))
      · have hhead := ih (n / 10) (by omega) (by omega)
        obtain ⟨d, digits, heq⟩ := List.exists_cons_of_ne_nil (ofNat_ne_nil (n / 10))
        rw [heq] at hhead
        rw [ofNat_of_le (Nat.not_lt.mp hlt), heq]
        exact hhead

theorem leading_ofNat (n : Nat) : Leading (ofNat n) where
  nonempty := ofNat_ne_nil n
  alone := by
    intro rest heq
    rcases Nat.eq_zero_or_pos n with rfl | hpos
    · rw [ofNat_of_lt (by decide)] at heq
      exact (List.cons.inj heq).2.symm
    · exact absurd (congrArg List.head? heq) (head?_ofNat hpos)

end Digit

namespace Numeral

/-- Whether a numeral is one that a text may have. -/
def WellFormed (n : Numeral) : Prop := Digit.Leading n.whole

theorem wellFormed_ofInt (n : Int) : (ofInt n).WellFormed := Digit.leading_ofNat n.natAbs

theorem wellFormed_ofNat (n : Nat) : (ofNat n).WellFormed := Digit.leading_ofNat n

theorem magnitude_ofNat (n : Nat) : (ofNat n).magnitude = n := Digit.spellFrom_ofNat n

theorem magnitude_ofInt (n : Int) : (ofInt n).magnitude = n.natAbs :=
  Digit.spellFrom_ofNat n.natAbs

theorem toCount?_ofNat {n : Nat} (h : n < UInt64.size) : (ofNat n).toCount? = some n := by
  rw [toCount?, magnitude_ofNat, decide_eq_true h]
  rfl

/-- A numeral that is a count is below `2 ^ 64`. -/
theorem lt_of_toCount? {n : Numeral} {count : Nat} (h : n.toCount? = some count) :
    count < UInt64.size := by
  rw [toCount?] at h
  split at h
  · next hcount =>
    cases h
    rw [Bool.and_eq_true, decide_eq_true_eq] at hcount
    exact hcount.2
  · cases h

/-- The characters of the digits before the point. -/
def wholeChars (n : Numeral) : List Char := n.whole.map Digit.toChar

/-- The characters of the point and the digits behind it. -/
def fractionChars (n : Numeral) : List Char :=
  if n.fraction.isEmpty then [] else '.' :: n.fraction.map Digit.toChar

/-- The characters behind the digits. -/
def scaleChars (n : Numeral) : List Char :=
  match n.exponent with
  | none => []
  | some e => exponentChars e

theorem chars_eq (n : Numeral) :
    n.chars =
      (if n.negative then ['-'] else []) ++
        (n.wholeChars ++ (n.fractionChars ++ n.scaleChars)) := by
  obtain ⟨negative, whole, fraction, exponent⟩ := n
  cases exponent <;> simp only [chars, wholeChars, fractionChars, scaleChars, List.append_assoc]

end Numeral

namespace Json

/-- Whether characters are such as may stand behind a value: none, or first a comma or the end of
an array or object. -/
def Delimited : List Char → Prop
  | [] => True
  | c :: _ => c = ',' ∨ c = ']' ∨ c = '\x7d'

/-- Whether characters start with no digit. -/
def Undigited : List Char → Prop
  | [] => True
  | c :: _ => Digit.ofChar? c = none

theorem Delimited.undigited {rest : List Char} (h : Delimited rest) : Undigited rest := by
  cases rest with
  | nil => trivial
  | cons c rest =>
      have hall : ∀ c, c = ',' ∨ c = ']' ∨ c = '\x7d' → Digit.ofChar? c = none := by
        rintro c (rfl | rfl | rfl) <;> decide
      exact hall c h

/-! ### Digits -/

theorem scanDigits_append (digits : List Digit) {rest : List Char} (h : Undigited rest) :
    scanDigits (digits.map Digit.toChar ++ rest) = (digits, rest) := by
  induction digits with
  | nil =>
      cases rest with
      | nil => rfl
      | cons c rest =>
          change Digit.ofChar? c = none at h
          rw [List.map_nil, List.nil_append, scanDigits, h]
  | cons d digits ih =>
      rw [List.map_cons, List.cons_append, scanDigits, Digit.ofChar?_toChar, ih]

theorem scanDigits1_append {digits : List Digit} (hdigits : digits ≠ []) {rest : List Char}
    (h : Undigited rest) :
    scanDigits1 (digits.map Digit.toChar ++ rest) = some (digits, rest) := by
  rw [scanDigits1, scanDigits_append digits h]
  cases digits with
  | nil => exact absurd rfl hdigits
  | cons d digits => rfl

theorem scanWhole_append {digits : List Digit} (hdigits : Digit.Leading digits) {rest : List Char}
    (h : Undigited rest) :
    scanWhole (digits.map Digit.toChar ++ rest) = some (digits, rest) := by
  rw [scanWhole, scanDigits_append digits h]
  split
  · next heq => exact absurd (congrArg Prod.fst heq) hdigits.nonempty
  · next heq => cases hdigits.alone (congrArg Prod.fst heq)
  · rfl

/-! ### The parts of a number -/

theorem scanExponent_of_delimited {rest : List Char} (h : Delimited rest) :
    scanExponent rest = some (none, rest) := by
  cases rest with
  | nil => rfl
  | cons c rest => rcases h with rfl | rfl | rfl <;> rfl

theorem scanExponent_scaleChars (n : Numeral) {rest : List Char} (h : Delimited rest) :
    scanExponent (n.scaleChars ++ rest) = some (n.exponent, rest) := by
  obtain ⟨negative, whole, fraction, exponent⟩ := n
  cases exponent with
  | none => exact scanExponent_of_delimited h
  | some e =>
      have hdigits := scanDigits1_append (Digit.ofNat_ne_nil e.natAbs) h.undigited
      by_cases hnegative : e < 0
      · have he : -((Digit.spellFrom 0 (Digit.ofNat e.natAbs) : Nat) : Int) = e := by
          rw [Digit.spellFrom_ofNat]
          omega
        change scanExponent (Numeral.exponentChars e ++ rest) = _
        rw [Numeral.exponentChars, if_pos hnegative]
        simp only [List.cons_append, scanExponent, hdigits]
        exact congrArg (fun e => some (some e, rest)) he
      · have he : ((Digit.spellFrom 0 (Digit.ofNat e.natAbs) : Nat) : Int) = e := by
          rw [Digit.spellFrom_ofNat]
          omega
        change scanExponent (Numeral.exponentChars e ++ rest) = _
        rw [Numeral.exponentChars, if_neg hnegative]
        simp only [List.cons_append, scanExponent, hdigits]
        exact congrArg (fun e => some (some e, rest)) he

theorem undigited_scaleChars (n : Numeral) {rest : List Char} (h : Delimited rest) :
    Undigited (n.scaleChars ++ rest) := by
  obtain ⟨negative, whole, fraction, exponent⟩ := n
  cases exponent with
  | none => exact h.undigited
  | some e =>
      change Digit.ofChar? 'e' = none
      decide

theorem scanFraction_fractionChars (n : Numeral) {rest : List Char} (h : Delimited rest) :
    scanFraction (n.fractionChars ++ (n.scaleChars ++ rest)) =
      some (n.fraction, n.scaleChars ++ rest) := by
  have hundigited := undigited_scaleChars n h
  rw [Numeral.fractionChars]
  by_cases hempty : n.fraction = []
  · have hpoint : ∀ more, n.scaleChars ++ rest ≠ '.' :: more := by
      obtain ⟨negative, whole, fraction, exponent⟩ := n
      intro more heq
      cases exponent with
      | some e => exact absurd (List.cons.inj heq).1 (by decide)
      | none =>
          rw [Numeral.scaleChars, List.nil_append] at heq
          rw [heq] at h
          rcases h with hc | hc | hc <;> exact absurd hc (by decide)
    rw [hempty, List.isEmpty_nil, if_pos rfl, List.nil_append, scanFraction]
    exact hpoint
  · rw [List.isEmpty_eq_false_iff.mpr hempty]
    exact scanDigits1_append hempty hundigited

theorem undigited_fractionChars (n : Numeral) {rest : List Char} (h : Delimited rest) :
    Undigited (n.fractionChars ++ (n.scaleChars ++ rest)) := by
  rw [Numeral.fractionChars]
  split
  · exact undigited_scaleChars n h
  · change Digit.ofChar? '.' = none
    decide

/-- A numeral in front of a comma or the end of an array or object is scanned as it was written. -/
theorem scanMagnitude_chars {n : Numeral} (hn : n.WellFormed) {rest : List Char}
    (h : Delimited rest) :
    scanMagnitude n.negative (n.wholeChars ++ (n.fractionChars ++ (n.scaleChars ++ rest))) =
      some (n, rest) := by
  rw [scanMagnitude, Numeral.wholeChars, scanWhole_append hn (undigited_fractionChars n h)]
  simp only [Option.bind_eq_bind, Option.bind_some, scanFraction_fractionChars n h,
    scanExponent_scaleChars n h]
  rfl

theorem scanToken_digit : ∀ (d : Digit) (rest : List Char),
    scanToken d.toChar rest =
      (scanMagnitude false (d.toChar :: rest)).map fun (numeral, rest) => (.number numeral, rest)
  | 0, _ | 1, _ | 2, _ | 3, _ | 4, _ | 5, _ | 6, _ | 7, _ | 8, _ | 9, _ => rfl

end Json
end Memograph
