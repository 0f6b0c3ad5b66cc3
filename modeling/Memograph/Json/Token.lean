import Memograph.Json

/-! The tokens of JSON text. Scanning is strict: the blanks are space, tab, line feed and carriage
return, a number has no plus sign and no zeros in front, and a text holds no bare control
character. A text is scanned into its parts first and put together after, because two escapes that
follow each other can spell one character. -/

namespace Memograph.Json

/-- A part of a text: a character, or the sixteen-bit unit of a `\u` escape. -/
inductive TextPart where
  | char (c : Char)
  | unit (code : Nat)
  deriving DecidableEq, Repr

inductive Token where
  | openArray
  | closeArray
  | openObject
  | closeObject
  | comma
  | colon
  | null
  | bool (value : Bool)
  | number (numeral : Numeral)
  | text (content : Option String)
  deriving DecidableEq, Repr

/-! ### Texts -/

/-- The value of a hexadecimal digit of either case. -/
def hexDigit? (c : Char) : Option Nat :=
  if c.isDigit then some (c.toNat - 48)
  else if 'a' ≤ c ∧ c ≤ 'f' then some (c.toNat - 87)
  else if 'A' ≤ c ∧ c ≤ 'F' then some (c.toNat - 55)
  else none

def hexUnit? (a b c d : Char) : Option Nat := do
  let a ← hexDigit? a
  let b ← hexDigit? b
  let c ← hexDigit? c
  let d ← hexDigit? d
  pure (((a * 16 + b) * 16 + c) * 16 + d)

/-- The character of a one-letter escape. -/
def escaped? : Char → Option Char
  | '"' => some '"'
  | '\\' => some '\\'
  | '/' => some '/'
  | 'b' => some '\x08'
  | 'f' => some '\x0c'
  | 'n' => some '\n'
  | 'r' => some '\r'
  | 't' => some '\t'
  | _ => none

/-- Scans the parts of a text up to its closing quote, and gives the characters after it. -/
def scanText : List Char → Option (List TextPart × List Char)
  | [] => none
  | '"' :: rest => some ([], rest)
  | '\\' :: 'u' :: a :: b :: c :: d :: rest => do
    let code ← hexUnit? a b c d
    let (parts, rest) ← scanText rest
    pure (.unit code :: parts, rest)
  | '\\' :: letter :: rest => do
    let c ← escaped? letter
    let (parts, rest) ← scanText rest
    pure (.char c :: parts, rest)
  | c :: rest =>
    if c.toNat < 32 ∨ c = '\\' then none
    else do
      let (parts, rest) ← scanText rest
      pure (.char c :: parts, rest)

/-- Whether a unit is the first half of a surrogate pair. -/
def isHighHalf (code : Nat) : Bool := decide (0xD800 ≤ code ∧ code < 0xDC00)

/-- Whether a unit is the second half of a surrogate pair. -/
def isLowHalf (code : Nat) : Bool := decide (0xDC00 ≤ code ∧ code < 0xE000)

/-- The characters that the parts of a text spell. Half of a surrogate pair spells none. -/
def spell? : List TextPart → Option (List Char)
  | [] => some []
  | .char c :: rest => (spell? rest).map (c :: ·)
  | .unit high :: .unit low :: rest =>
    if isHighHalf high then
      if isLowHalf low then
        (spell? rest).map (Char.ofNat (0x10000 + (high - 0xD800) * 1024 + (low - 0xDC00)) :: ·)
      else none
    else if isLowHalf high then none
    else (spell? (.unit low :: rest)).map (Char.ofNat high :: ·)
  | .unit code :: rest =>
    if isHighHalf code || isLowHalf code then none
    else (spell? rest).map (Char.ofNat code :: ·)

/-! ### Numbers -/

def scanDigits : List Char → List Digit × List Char
  | [] => ([], [])
  | c :: rest =>
    match Digit.ofChar? c with
    | some d =>
      let (digits, rest) := scanDigits rest
      (d :: digits, rest)
    | none => ([], c :: rest)

/-- Splits off at least one digit. -/
def scanDigits1 (input : List Char) : Option (List Digit × List Char) :=
  match scanDigits input with
  | ([], _) => none
  | scanned => some scanned

/-- Scans the digits before the point: a zero stands alone. -/
def scanWhole (input : List Char) : Option (List Digit × List Char) :=
  match scanDigits input with
  | ([], _) => none
  | (0 :: _ :: _, _) => none
  | scanned => some scanned

/-- Scans the point and the digits behind it, if there is a point. -/
def scanFraction : List Char → Option (List Digit × List Char)
  | '.' :: rest => scanDigits1 rest
  | input => some ([], input)

/-- Scans an exponent, if there is an exponent mark. -/
def scanExponent : List Char → Option (Option Int × List Char)
  | [] => some (none, [])
  | mark :: input =>
    if mark = 'e' ∨ mark = 'E' then
      match input with
      | '-' :: input => do
        let (digits, rest) ← scanDigits1 input
        pure (some (-(Digit.spellFrom 0 digits : Int)), rest)
      | '+' :: input => do
        let (digits, rest) ← scanDigits1 input
        pure (some (Digit.spellFrom 0 digits : Int), rest)
      | input => do
        let (digits, rest) ← scanDigits1 input
        pure (some (Digit.spellFrom 0 digits : Int), rest)
    else some (none, mark :: input)

/-- Scans a number without its sign. -/
def scanMagnitude (negative : Bool) (input : List Char) : Option (Numeral × List Char) := do
  let (whole, input) ← scanWhole input
  let (fraction, input) ← scanFraction input
  let (exponent, input) ← scanExponent input
  pure (⟨negative, whole, fraction, exponent⟩, input)

/-! ### Tokens -/

/-- Whether a character only separates tokens. -/
def isBlank (c : Char) : Bool := c == ' ' || c == '\t' || c == '\n' || c == '\r'

/-- The token that starts with a character, and the characters after it. -/
def scanToken (c : Char) (rest : List Char) : Option (Token × List Char) :=
  match c, rest with
  | '[', rest => some (.openArray, rest)
  | ']', rest => some (.closeArray, rest)
  | '\x7b', rest => some (.openObject, rest)
  | '\x7d', rest => some (.closeObject, rest)
  | ',', rest => some (.comma, rest)
  | ':', rest => some (.colon, rest)
  | 'n', 'u' :: 'l' :: 'l' :: rest => some (.null, rest)
  | 't', 'r' :: 'u' :: 'e' :: rest => some (.bool true, rest)
  | 'f', 'a' :: 'l' :: 's' :: 'e' :: rest => some (.bool false, rest)
  | '"', rest => (scanText rest).map fun (parts, rest) =>
      (.text ((spell? parts).map String.ofList), rest)
  | '-', rest => (scanMagnitude true rest).map fun (numeral, rest) => (.number numeral, rest)
  | c, rest =>
    (scanMagnitude false (c :: rest)).map fun (numeral, rest) => (.number numeral, rest)

/-- The tokens of a text, given a bound on their number. -/
def scanUpTo : Nat → List Char → Option (List Token)
  | _, [] => some []
  | 0, _ :: _ => none
  | n + 1, c :: rest =>
    if isBlank c then scanUpTo n rest
    else do
      let (token, rest) ← scanToken c rest
      let tokens ← scanUpTo n rest
      pure (token :: tokens)

def scan (input : List Char) : Option (List Token) := scanUpTo input.length input

end Memograph.Json
