import Mathlib.Tactic.SplitIfs
import Memograph.Json.Reader
import Memograph.Json.Text
import Memograph.Proofs.Numerals

/-! Documents from their compact text. The text of a document is scanned to the tokens of the
document, and these are read to the document again, if every text in it is known and every numeral
is one that a text may have. -/

namespace Memograph.Json

mutual

/-- Whether every text, key and numeral of a document is one that a text may have. -/
def Printable : Json → Prop
  | .null => True
  | .bool _ => True
  | .number numeral => numeral.WellFormed
  | .text content => content.isSome
  | .array items => PrintableItems items
  | .object entries => PrintableEntries entries

/-- Whether all items are printable. -/
def PrintableItems : List Json → Prop
  | [] => True
  | item :: items => Printable item ∧ PrintableItems items

/-- Whether all entries are printable, keys and values. -/
def PrintableEntries : List (Option String × Json) → Prop
  | [] => True
  | (key, value) :: entries => key.isSome ∧ Printable value ∧ PrintableEntries entries

end

mutual

/-- The tokens of a document. -/
def tokens : Json → List Token
  | .null => [.null]
  | .bool value => [.bool value]
  | .number numeral => [.number numeral]
  | .text content => [.text content]
  | .array [] => [.openArray, .closeArray]
  | .array (item :: items) => .openArray :: tokens item ++ tokensOfItems items ++ [.closeArray]
  | .object [] => [.openObject, .closeObject]
  | .object ((key, value) :: entries) =>
    .openObject :: .text key :: .colon :: tokens value ++ tokensOfEntries entries ++ [.closeObject]

/-- The tokens of the items after the first, with a comma in front of each. -/
def tokensOfItems : List Json → List Token
  | [] => []
  | item :: items => .comma :: tokens item ++ tokensOfItems items

/-- The tokens of the entries after the first, with a comma in front of each. -/
def tokensOfEntries : List (Option String × Json) → List Token
  | [] => []
  | (key, value) :: entries =>
    .comma :: .text key :: .colon :: tokens value ++ tokensOfEntries entries

end

/-! ### Texts -/

/-- The part of a text that a character is scanned to behind its escape. -/
def partOf (c : Char) : TextPart :=
  if c.toNat < 32 ∧ c ∉ ['\x08', '\x0c', '\n', '\r', '\t'] then .unit c.toNat else .char c

theorem hexUnit?_hexChar : ∀ n < 32,
    hexUnit? '0' '0' (hexChar (n / 16)) (hexChar n) = some n := by
  decide

theorem scanText_plain {c : Char} (hquote : c ≠ '"') (hslash : c ≠ '\\') (hlow : ¬c.toNat < 32)
    (rest : List Char) :
    scanText (c :: rest) = (scanText rest).map fun (parts, rest) => (.char c :: parts, rest) := by
  rw [scanText.eq_def]
  split
  · next heq => cases heq
  · next heq => exact absurd (List.cons.inj heq).1 hquote
  · next heq => exact absurd (List.cons.inj heq).1 hslash
  · next heq => exact absurd (List.cons.inj heq).1 hslash
  · next heq =>
    cases heq
    rw [if_neg (by simp [hslash, hlow])]
    cases scanText rest <;> rfl

theorem scanText_letter {letter c : Char} (hu : letter ≠ 'u') (h : escaped? letter = some c)
    (rest : List Char) :
    scanText ('\\' :: letter :: rest) =
      (scanText rest).map fun (parts, rest) => (.char c :: parts, rest) := by
  rw [scanText.eq_def]
  split
  · next heq => cases heq
  · next heq => exact absurd (List.cons.inj heq).1 (by decide)
  · next heq => exact absurd (List.cons.inj (List.cons.inj heq).2).1 hu
  · next heq =>
    cases heq
    rw [h]
    cases scanText rest <;> rfl
  · next hother heq =>
    cases heq
    exact absurd rfl (hother _ _ rfl)

theorem scanText_unit {n : Nat} (h : n < 32) (rest : List Char) :
    scanText ('\\' :: 'u' :: '0' :: '0' :: hexChar (n / 16) :: hexChar n :: rest) =
      (scanText rest).map fun (parts, rest) => (.unit n :: parts, rest) := by
  rw [scanText, hexUnit?_hexChar n h]
  cases scanText rest <;> rfl

/-- The escape of a character is scanned to one part. -/
theorem scanText_escapeChar (c : Char) (rest : List Char) :
    scanText (escapeChar c ++ rest) =
      (scanText rest).map fun (parts, rest) => (partOf c :: parts, rest) := by
  have hletter {letter d : Char} (hc : c = d) (hu : letter ≠ 'u') (h : escaped? letter = some d)
      (hpart : partOf d = .char d) : scanText ('\\' :: letter :: rest) =
        (scanText rest).map fun (parts, rest) => (partOf c :: parts, rest) := by
    rw [hc, hpart]
    exact scanText_letter hu h rest
  unfold escapeChar
  split_ifs with hquote hslash hb hf hn hr ht hlow
  · exact hletter hquote (by decide) rfl (by decide)
  · exact hletter hslash (by decide) rfl (by decide)
  · exact hletter hb (by decide) rfl (by decide)
  · exact hletter hf (by decide) rfl (by decide)
  · exact hletter hn (by decide) rfl (by decide)
  · exact hletter hr (by decide) rfl (by decide)
  · exact hletter ht (by decide) rfl (by decide)
  · have hmem : c ∉ ['\x08', '\x0c', '\n', '\r', '\t'] := by simp [hb, hf, hn, hr, ht]
    rw [partOf, if_pos ⟨hlow, hmem⟩]
    exact scanText_unit hlow rest
  · rw [partOf, if_neg fun h => hlow h.1]
    exact scanText_plain hquote hslash hlow rest

theorem scanText_quoted (content rest : List Char) :
    scanText (content.flatMap escapeChar ++ '"' :: rest) = some (content.map partOf, rest) := by
  induction content with
  | nil => rfl
  | cons c content ih =>
      rw [List.flatMap_cons, List.append_assoc, scanText_escapeChar, ih]
      rfl

theorem spell?_map_partOf (content : List Char) : spell? (content.map partOf) = some content := by
  induction content with
  | nil => rfl
  | cons c content ih =>
      rw [List.map_cons, partOf]
      split
      · next h =>
        have hhigh : isHighHalf c.toNat = false := decide_eq_false fun hle => by omega
        have hlow : isLowHalf c.toNat = false := decide_eq_false fun hle => by omega
        have hchar : Char.ofNat c.toNat = c := Char.ofNat_toNat c
        rw [spell?.eq_def]
        split
        · next heq => cases heq
        · next heq => cases heq
        · next heq =>
          obtain ⟨hunit, hrest⟩ := List.cons.inj heq
          cases hunit
          rw [hhigh, hlow, ← hrest, ih, hchar]
          rfl
        · next heq =>
          cases heq
          rw [hhigh, hlow, ih, hchar]
          rfl
      · rw [spell?, ih]
        rfl

/-- A quoted text is scanned to the text. -/
theorem scanToken_quote (content : String) (rest : List Char) :
    scanToken '"' (content.toList.flatMap escapeChar ++ '"' :: rest) =
      some (.text (some content), rest) := by
  change (scanText _).map _ = _
  rw [scanText_quoted]
  simp only [Option.map_some, spell?_map_partOf, String.ofList_toList]

/-! ### Tokens -/

/-- Whether characters are scanned to tokens, in no more steps than there are characters. The bound
leaves the scanner of the whole text enough of them. -/
def Scans (input : List Char) (tokens : List Token) : Prop :=
  ∃ n ≤ input.length, scanUpTo n input = some tokens

theorem scanUpTo_succ {n : Nat} {input : List Char} {tokens : List Token}
    (h : scanUpTo n input = some tokens) : scanUpTo (n + 1) input = some tokens := by
  induction n generalizing input tokens with
  | zero =>
      cases input with
      | nil => exact h
      | cons c rest => cases h
  | succ n ih =>
      cases input with
      | nil => exact h
      | cons c rest =>
          rw [scanUpTo] at h ⊢
          split at h
          · next hblank =>
            rw [if_pos hblank]
            exact ih h
          · next hblank =>
            rw [if_neg hblank]
            obtain ⟨⟨token, after⟩, htoken, h⟩ := Option.bind_eq_some_iff.mp h
            obtain ⟨more, hmore, h⟩ := Option.bind_eq_some_iff.mp h
            rw [htoken, Option.bind_eq_bind, Option.bind_some]
            exact Option.bind_eq_some_iff.mpr ⟨more, ih hmore, h⟩

theorem Scans.scan {input : List Char} {tokens : List Token} (h : Scans input tokens) :
    scan input = some tokens := by
  obtain ⟨n, hn, hscan⟩ := h
  obtain ⟨more, hmore⟩ := Nat.exists_eq_add_of_le hn
  rw [Json.scan, hmore]
  clear hn hmore
  induction more with
  | zero => exact hscan
  | succ more ih => exact scanUpTo_succ ih

theorem Scans.cons {c : Char} {more rest : List Char} {token : Token} {tokens : List Token}
    (hrest : Scans rest tokens) (hblank : isBlank c = false)
    (h : scanToken c (more ++ rest) = some (token, rest)) :
    Scans (c :: (more ++ rest)) (token :: tokens) := by
  obtain ⟨n, hn, hscan⟩ := hrest
  refine ⟨n + 1, ?_, ?_⟩
  · rw [List.length_cons, List.length_append]
    omega
  · rw [scanUpTo, hblank, h]
    simp [hscan]

theorem Scans.mark {c : Char} {token : Token} {rest : List Char} {tokens : List Token}
    (hrest : Scans rest tokens) (hblank : isBlank c = false)
    (h : scanToken c rest = some (token, rest)) : Scans (c :: rest) (token :: tokens) :=
  @Scans.cons c [] rest token tokens hrest hblank h

theorem Scans.quote {rest : List Char} {tokens : List Token} (hrest : Scans rest tokens)
    (content : String) :
    Scans (quote content.toList ++ rest) (.text (some content) :: tokens) := by
  have h := scanToken_quote content rest
  rw [List.append_cons] at h
  rw [Json.quote, List.cons_append]
  exact hrest.cons rfl h

theorem scans_number {numeral : Numeral} (h : numeral.WellFormed) {rest : List Char}
    {tokens : List Token} (hdelimited : Delimited rest) (hrest : Scans rest tokens) :
    Scans (numeral.chars ++ rest) (.number numeral :: tokens) := by
  have hscan := scanMagnitude_chars h hdelimited
  rw [← List.append_assoc, ← List.append_assoc, List.append_assoc numeral.wholeChars] at hscan
  rw [Numeral.chars_eq, List.append_assoc]
  cases hnegative : numeral.negative with
  | true =>
      refine @Scans.cons '-' _ rest _ tokens hrest rfl ?_
      change (scanMagnitude true _).map _ = _
      rw [← hnegative, hscan]
      rfl
  | false =>
      have hblank : ∀ d : Digit, isBlank d.toChar = false := by decide
      obtain ⟨d, digits, hwhole⟩ := List.exists_cons_of_ne_nil h.nonempty
      have hchars : numeral.wholeChars = d.toChar :: digits.map Digit.toChar := by
        rw [Numeral.wholeChars, hwhole, List.map_cons]
      rw [hnegative, hchars, List.cons_append, List.cons_append] at hscan
      rw [if_neg Bool.false_ne_true, List.nil_append, hchars, List.cons_append, List.cons_append]
      refine hrest.cons (hblank d) ?_
      rw [scanToken_digit, hscan]
      rfl

theorem delimited_charsOfItems (items : List Json) {rest : List Char} (h : Delimited rest) :
    Delimited (charsOfItems items ++ rest) := by
  cases items with
  | nil => exact h
  | cons item items => exact Or.inl rfl

theorem delimited_charsOfEntries (entries : List (Option String × Json)) {rest : List Char}
    (h : Delimited rest) : Delimited (charsOfEntries entries ++ rest) := by
  cases entries with
  | nil => exact h
  | cons entry entries => exact Or.inl rfl

mutual

/-- The text of a document in front of a comma or the end of an array or object is scanned to the
tokens of the document. -/
theorem scans_chars : ∀ {json : Json}, json.Printable → ∀ {rest : List Char} {more : List Token},
    Delimited rest → Scans rest more → Scans (json.chars ++ rest) (json.tokens ++ more)
  -- What follows a part is scanned before the part, so the text is taken from its end on.
  | .null, _, rest, more, _, hrest => by
      rw [chars, tokens]
      exact @Scans.cons 'n' ['u', 'l', 'l'] rest .null more hrest rfl rfl
  | .bool true, _, rest, more, _, hrest => by
      rw [chars, tokens]
      exact @Scans.cons 't' ['r', 'u', 'e'] rest (.bool true) more hrest rfl rfl
  | .bool false, _, rest, more, _, hrest => by
      rw [chars, tokens]
      exact @Scans.cons 'f' ['a', 'l', 's', 'e'] rest (.bool false) more hrest rfl rfl
  | .number numeral, h, rest, more, hdelimited, hrest => by
      rw [chars, tokens]
      exact scans_number h hdelimited hrest
  | .text (some content), _, rest, more, _, hrest => by
      rw [chars, tokens]
      exact hrest.quote content
  | .array [], _, rest, more, _, hrest => by
      rw [chars, tokens]
      exact Scans.mark (Scans.mark hrest rfl rfl) rfl rfl
  | .array (item :: items), h, rest, more, _, hrest => by
      have hclose : Scans (']' :: rest) (.closeArray :: more) := hrest.mark rfl rfl
      have hdelimited : Delimited (']' :: rest) := Or.inr (Or.inl rfl)
      have hitems := scans_charsOfItems h.2 hdelimited hclose
      have hitem := scans_chars h.1 (delimited_charsOfItems items hdelimited) hitems
      rw [chars, tokens]
      simp only [List.cons_append, List.append_assoc, List.nil_append]
      exact hitem.mark rfl rfl
  | .object [], _, rest, more, _, hrest => by
      rw [chars, tokens]
      exact Scans.mark (Scans.mark hrest rfl rfl) rfl rfl
  | .object ((some key, value) :: entries), h, rest, more, _, hrest => by
      have hclose : Scans ('\x7d' :: rest) (.closeObject :: more) := hrest.mark rfl rfl
      have hdelimited : Delimited ('\x7d' :: rest) := Or.inr (Or.inr rfl)
      have hentries := scans_charsOfEntries h.2.2 hdelimited hclose
      have hvalue := scans_chars h.2.1 (delimited_charsOfEntries entries hdelimited) hentries
      have hkey := (@Scans.mark ':' .colon _ _ hvalue rfl rfl).quote key
      rw [chars, tokens]
      simp only [List.cons_append, List.append_assoc, List.nil_append]
      exact hkey.mark rfl rfl

theorem scans_charsOfItems : ∀ {items : List Json}, PrintableItems items →
    ∀ {rest : List Char} {more : List Token}, Delimited rest → Scans rest more →
      Scans (charsOfItems items ++ rest) (tokensOfItems items ++ more)
  | [], _, rest, more, _, hrest => hrest
  | item :: items, h, rest, more, hdelimited, hrest => by
      have hitems := scans_charsOfItems h.2 hdelimited hrest
      have hitem := scans_chars h.1 (delimited_charsOfItems items hdelimited) hitems
      rw [charsOfItems, tokensOfItems]
      simp only [List.cons_append, List.append_assoc]
      exact hitem.mark rfl rfl

theorem scans_charsOfEntries : ∀ {entries : List (Option String × Json)},
    PrintableEntries entries → ∀ {rest : List Char} {more : List Token}, Delimited rest →
      Scans rest more →
        Scans (charsOfEntries entries ++ rest) (tokensOfEntries entries ++ more)
  | [], _, rest, more, _, hrest => hrest
  | (some key, value) :: entries, h, rest, more, hdelimited, hrest => by
      have hentries := scans_charsOfEntries h.2.2 hdelimited hrest
      have hvalue := scans_chars h.2.1 (delimited_charsOfEntries entries hdelimited) hentries
      have hkey := (@Scans.mark ':' .colon _ _ hvalue rfl rfl).quote key
      rw [charsOfEntries, tokensOfEntries]
      simp only [List.cons_append, List.append_assoc]
      exact hkey.mark rfl rfl

end

/-! ### Documents -/

/-- Whether the reader is where a value may begin. -/
def AtValue (expecting : Expecting) : Prop := expecting = .value ∨ expecting = .valueOrEnd

/-- Where a value may begin, the token of one begins it, also where the end may stand instead. -/
theorem readTokens_begin {expecting : Expecting} (h : AtValue expecting) {token : Token}
    {opened : List Opened} {progress : Progress} (hbegin : beginValue opened token = some progress)
    (more : List Token) :
    readTokens (.reading ⟨opened, expecting⟩) (token :: more) = readTokens progress more := by
  have hadvance : advance ⟨opened, expecting⟩ token = some progress := by
    rcases h with rfl | rfl
    · exact hbegin
    · cases token <;> first | exact hbegin | cases hbegin
  rw [readTokens, hadvance]

mutual

/-- The tokens of a document are read to the document, where a value may begin. -/
theorem readTokens_tokens : ∀ (json : Json) {expecting : Expecting}, AtValue expecting →
    ∀ (opened : List Opened) (more : List Token),
      readTokens (.reading ⟨opened, expecting⟩) (json.tokens ++ more) =
        readTokens (place json opened) more
  | .null, _, h, _, _ => readTokens_begin h rfl _
  | .bool _, _, h, _, _ => readTokens_begin h rfl _
  | .number _, _, h, _, _ => readTokens_begin h rfl _
  | .text _, _, h, _, _ => readTokens_begin h rfl _
  | .array [], _, h, _, more => by
      rw [tokens, List.cons_append, readTokens_begin h rfl]
      rfl
  | .array (item :: items), _, h, opened, more => by
      rw [tokens]
      simp only [List.cons_append, List.append_assoc, List.nil_append]
      rw [readTokens_begin h rfl, readTokens_tokens item (Or.inr rfl)]
      exact readTokens_tokensOfItems items [item] opened more
  | .object [], _, h, _, more => by
      rw [tokens, List.cons_append, readTokens_begin h rfl]
      rfl
  | .object ((key, value) :: entries), _, h, opened, more => by
      rw [tokens]
      simp only [List.cons_append, List.append_assoc, List.nil_append]
      rw [readTokens_begin h rfl]
      change readTokens (.reading ⟨.object [] key :: opened, .value⟩) _ = _
      rw [readTokens_tokens value (Or.inl rfl)]
      exact readTokens_tokensOfEntries entries [(key, value)] opened more

theorem readTokens_tokensOfItems : ∀ (items done : List Json) (opened : List Opened)
    (more : List Token),
      readTokens (.reading ⟨.array done :: opened, .separator⟩)
          (tokensOfItems items ++ .closeArray :: more) =
        readTokens (place (.array (done.reverse ++ items)) opened) more
  | [], done, opened, more => by
      rw [List.append_nil]
      rfl
  | item :: items, done, opened, more => by
      rw [tokensOfItems]
      simp only [List.cons_append, List.append_assoc]
      change readTokens (.reading ⟨.array done :: opened, .value⟩) _ = _
      rw [readTokens_tokens item (Or.inl rfl)]
      change readTokens (.reading ⟨.array (item :: done) :: opened, .separator⟩) _ = _
      rw [readTokens_tokensOfItems items (item :: done) opened more, List.reverse_cons,
        List.append_assoc]
      rfl

theorem readTokens_tokensOfEntries : ∀ (entries done : List (Option String × Json))
    (opened : List Opened) (more : List Token),
      readTokens (.reading ⟨.object done none :: opened, .separator⟩)
          (tokensOfEntries entries ++ .closeObject :: more) =
        readTokens (place (.object (done.reverse ++ entries)) opened) more
  | [], done, opened, more => by
      rw [List.append_nil]
      rfl
  | (key, value) :: entries, done, opened, more => by
      rw [tokensOfEntries]
      simp only [List.cons_append, List.append_assoc]
      change readTokens (.reading ⟨.object done key :: opened, .value⟩) _ = _
      rw [readTokens_tokens value (Or.inl rfl)]
      change readTokens (.reading ⟨.object ((key, value) :: done) none :: opened, .separator⟩) _ = _
      rw [readTokens_tokensOfEntries entries ((key, value) :: done) opened more, List.reverse_cons,
        List.append_assoc]
      rfl

end

/-- The compact text of a document is read to the document. -/
theorem parse?_compact {json : Json} (h : json.Printable) : parse? json.compact = some json := by
  have hscan := @scans_chars json h [] [] trivial ⟨0, Nat.le_refl _, rfl⟩
  rw [List.append_nil, List.append_nil] at hscan
  rw [parse?, compact, String.toList_ofList, hscan.scan]
  have hread := readTokens_tokens json (Or.inl rfl) [] []
  rw [List.append_nil] at hread
  exact hread

end Memograph.Json
