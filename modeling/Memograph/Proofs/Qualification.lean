import Memograph.Name

/-! Names as text. The display of a variable puts a dot behind its context, also behind the root,
so it is dotted whatever the context is, and a reader takes it apart at the last dot. It is the
variable again wherever it is written, if no dot is hidden in a segment or in the local name and no
segment is empty. Every name as written stands for such a variable. The valid names are those of a
grammar: identifiers joined by dots, with one more dot in front or not. -/

namespace Memograph

/-- Whether a context is one that a dotted path writes: no segment is empty or has a dot in it. -/
def ContextPath.WellFormed (path : ContextPath) : Prop :=
  ∀ segment ∈ path.segments, segment ≠ "" ∧ isDotted segment = false

instance (path : ContextPath) : Decidable path.WellFormed :=
  inferInstanceAs (Decidable (∀ segment ∈ path.segments, segment ≠ "" ∧ isDotted segment = false))

/-- Whether a variable has a well formed context and a local name without a dot. -/
structure QualifiedName.WellFormed (name : QualifiedName) : Prop where
  context : name.context.WellFormed
  localName : isDotted name.localName = false

instance (name : QualifiedName) : Decidable name.WellFormed :=
  decidable_of_iff (name.context.WellFormed ∧ isDotted name.localName = false)
    ⟨fun h => ⟨h.1, h.2⟩, fun h => ⟨h.context, h.localName⟩⟩

theorem isDotted_eq_false_iff {written : String} :
    isDotted written = false ↔ '.' ∉ written.toList := by
  simp [isDotted]

/-! ### Segments -/

theorem not_mem_of_mem_splitOn {text : List Char} {separator : Char} :
    ∀ segment ∈ text.splitOn separator, separator ∉ segment := by
  induction text with
  | nil => simp
  | cons c text ih =>
      rw [List.splitOn_cons_eq_if_modifyHead]
      split
      · simpa using ih
      · next hne =>
          -- The first segment gets one more character, which does not separate.
          obtain ⟨first, rest, hsplit⟩ :=
            List.exists_cons_of_ne_nil (List.splitOn_ne_nil separator text)
          rw [hsplit] at ih ⊢
          obtain ⟨hfirst, hrest⟩ := List.forall_mem_cons.mp ih
          refine List.forall_mem_cons.mpr ⟨?_, hrest⟩
          have hc : separator ≠ c := by
            rintro rfl
            simp at hne
          exact List.not_mem_cons_of_ne_of_not_mem hc hfirst

theorem ContextPath.ofChars_wellFormed (path : List Char) : (ofChars path).WellFormed := by
  intro segment hsegment
  obtain ⟨text, htext, rfl⟩ := List.mem_map.mp hsegment
  obtain ⟨hmem, hkept⟩ := List.mem_filter.mp htext
  refine ⟨?_, ?_⟩
  · rintro hempty
    have hnil : text = [] := by simpa using congrArg String.toList hempty
    simp [hnil] at hkept
  · rw [isDotted_eq_false_iff, String.toList_ofList]
    exact not_mem_of_mem_splitOn text hmem

theorem ContextPath.WellFormed.ofChars_display {path : ContextPath} (h : path.WellFormed) :
    ContextPath.ofChars path.display.toList = path := by
  obtain ⟨segments⟩ := path
  by_cases hroot : segments = []
  · subst hroot
    rfl
  have hdots : ∀ text ∈ segments.map String.toList, '.' ∉ text := by
    intro text htext
    obtain ⟨segment, hsegment, rfl⟩ := List.mem_map.mp htext
    exact isDotted_eq_false_iff.mp (h segment hsegment).2
  have hfull : ∀ text ∈ segments.map String.toList, (!text.isEmpty) = true := by
    intro text htext
    obtain ⟨segment, hsegment, rfl⟩ := List.mem_map.mp htext
    have hne := (h segment hsegment).1
    simpa [String.toList_eq_nil_iff] using hne
  have hmap : segments.map String.toList ≠ [] := by simpa using hroot
  have hjoined : (".".intercalate segments).toList =
      ['.'].intercalate (segments.map String.toList) :=
    String.toList_intercalate
  rw [ContextPath.display, ContextPath.ofChars, hjoined, List.splitOn_intercalate '.' hdots hmap,
    List.filter_eq_self.mpr hfull, List.map_map]
  congr 1
  exact List.map_id'' (fun segment => String.ofList_toList) segments

/-! ### The last dot -/

theorem splitLastDot_eq_none_iff {cs : List Char} : splitLastDot cs = none ↔ '.' ∉ cs := by
  induction cs with
  | nil => simp [splitLastDot]
  | cons c rest ih =>
      rw [splitLastDot]
      cases hrest : splitLastDot rest with
      | some split =>
          have hmem : '.' ∈ rest := by simpa [hrest] using ih
          simp [hmem]
      | none =>
          have hmem : '.' ∉ rest := ih.mp hrest
          simp [hmem, eq_comm]

theorem splitLastDot_append {after : List Char} (h : '.' ∉ after) (before : List Char) :
    splitLastDot (before ++ '.' :: after) = some (before, after) := by
  induction before with
  | nil =>
      rw [List.nil_append, splitLastDot, splitLastDot_eq_none_iff.mpr h]
      exact if_pos rfl
  | cons c before ih =>
      rw [List.cons_append, splitLastDot, ih]

theorem not_mem_of_splitLastDot {cs before after : List Char}
    (h : splitLastDot cs = some (before, after)) : '.' ∉ after := by
  induction cs generalizing before with
  | nil => cases h
  | cons c rest ih =>
      rw [splitLastDot] at h
      cases hrest : splitLastDot rest with
      | some split =>
          rw [hrest] at h
          cases h
          exact ih hrest
      | none =>
          rw [hrest] at h
          by_cases hc : c = '.'
          · rw [if_pos hc] at h
            cases h
            exact splitLastDot_eq_none_iff.mp hrest
          · rw [if_neg hc] at h
            cases h

/-- A plain name belongs to the active context. -/
theorem qualify_of_plain {written : String} (h : isDotted written = false) (context : ContextPath) :
    qualify context written = ⟨context, written⟩ := by
  rw [qualify, splitLastDot_eq_none_iff.mpr (isDotted_eq_false_iff.mp h)]

theorem QualifiedName.WellFormed.qualify_display {name : QualifiedName} (h : name.WellFormed)
    (active : ContextPath) : qualify active name.display = name := by
  have hdot : splitLastDot name.display.toList =
      some (name.context.display.toList, name.localName.toList) := by
    have htext : name.display.toList =
        name.context.display.toList ++ '.' :: name.localName.toList := by
      simp [QualifiedName.display]
    rw [htext, splitLastDot_append (isDotted_eq_false_iff.mp h.localName)]
  rw [qualify, hdot]
  simp only [h.context.ofChars_display, String.ofList_toList]

theorem qualify_wellFormed {active : ContextPath} (h : active.WellFormed) (written : String) :
    (qualify active written).WellFormed := by
  unfold qualify
  split
  · next before after hsplit =>
      refine ⟨ContextPath.ofChars_wellFormed before, ?_⟩
      rw [isDotted_eq_false_iff, String.toList_ofList]
      exact not_mem_of_splitLastDot hsplit
  · next hsplit =>
      exact ⟨h, isDotted_eq_false_iff.mpr (splitLastDot_eq_none_iff.mp hsplit)⟩

/-! ### The grammar of valid names -/

/-- A letter of the ASCII range. -/
def IsLetter (c : Char) : Prop := 'a' ≤ c ∧ c ≤ 'z' ∨ 'A' ≤ c ∧ c ≤ 'Z'

/-- A digit of the ASCII range. -/
def IsDigit (c : Char) : Prop := '0' ≤ c ∧ c ≤ '9'

/-- The texts that are identifiers: a letter or an underscore, and letters, digits and underscores
behind it. -/
inductive Identifier : List Char → Prop where
  | mk {first : Char} {rest : List Char} (hfirst : IsLetter first ∨ first = '_')
      (hrest : ∀ c ∈ rest, IsLetter c ∨ IsDigit c ∨ c = '_') : Identifier (first :: rest)

/-- The texts that are one or more identifiers with a dot between each two. -/
inductive Identifiers : List Char → Prop where
  | one {text : List Char} (h : Identifier text) : Identifiers text
  | more {text rest : List Char} (h : Identifier text) (hrest : Identifiers rest) :
      Identifiers (text ++ '.' :: rest)

/-- The texts that are valid names: identifiers, with a dot in front of them or not. -/
inductive ValidName : List Char → Prop where
  | plain {text : List Char} (h : Identifiers text) : ValidName text
  | dotted {text : List Char} (h : Identifiers text) : ValidName ('.' :: text)

theorem isAlpha_iff {c : Char} : c.isAlpha = true ↔ IsLetter c := by
  have hupper : c.isUpper = true ↔ 'A' ≤ c ∧ c ≤ 'Z' := decide_eq_true_iff
  have hlower : c.isLower = true ↔ 'a' ≤ c ∧ c ≤ 'z' :=
    (Bool.and_eq_true_iff).trans (and_congr decide_eq_true_iff decide_eq_true_iff)
  change (c.isUpper || c.isLower) = true ↔ IsLetter c
  rw [Bool.or_eq_true, hupper, hlower]
  exact or_comm

theorem isDigit_iff {c : Char} : c.isDigit = true ↔ IsDigit c := by
  simp only [Char.isDigit, Bool.and_eq_true, decide_eq_true_eq]
  exact Iff.rfl

theorem isNameStart_iff {c : Char} : isNameStart c = true ↔ IsLetter c ∨ c = '_' := by
  rw [isNameStart, Bool.or_eq_true, isAlpha_iff, beq_iff_eq]

theorem isNameRest_iff {c : Char} : isNameRest c = true ↔ IsLetter c ∨ IsDigit c ∨ c = '_' := by
  rw [isNameRest, Char.isAlphanum, Bool.or_eq_true, Bool.or_eq_true, isAlpha_iff, isDigit_iff,
    beq_iff_eq, or_assoc]

theorem isIdentifier_iff {text : List Char} : isIdentifier text = true ↔ Identifier text := by
  constructor
  · intro h
    cases text with
    | nil => cases h
    | cons first rest =>
        rw [isIdentifier, Bool.and_eq_true, isNameStart_iff, List.all_eq_true] at h
        exact ⟨h.1, fun c hc => isNameRest_iff.mp (h.2 c hc)⟩
  · rintro ⟨hfirst, hrest⟩
    rw [isIdentifier, Bool.and_eq_true, isNameStart_iff, List.all_eq_true]
    exact ⟨hfirst, fun c hc => isNameRest_iff.mpr (hrest c hc)⟩

theorem Identifier.not_mem_dot {text : List Char} (h : Identifier text) : '.' ∉ text := by
  obtain ⟨hfirst, hrest⟩ := h
  rw [List.mem_cons, not_or]
  constructor
  · rintro rfl
    revert hfirst
    simp [IsLetter]
  · intro hmem
    have hdot := hrest '.' hmem
    revert hdot
    simp [IsLetter, IsDigit]

/-- The identifiers of a text are its segments. -/
theorem identifiers_iff {text : List Char} :
    Identifiers text ↔ ∀ segment ∈ text.splitOn '.', Identifier segment := by
  constructor
  · intro h
    induction h with
    | one h => rwa [List.splitOn_eq_singleton h.not_mem_dot, List.forall_mem_singleton]
    | more h hrest ih =>
        rw [List.splitOn_append_cons_self_of_not_mem h.not_mem_dot]
        exact List.forall_mem_cons.mpr ⟨h, ih⟩
  · intro h
    have hjoined : ['.'].intercalate (text.splitOn '.') = text := List.intercalate_splitOn '.'
    rw [← hjoined]
    have hne := List.splitOn_ne_nil '.' text
    generalize text.splitOn '.' = segments at h hne
    induction segments with
    | nil => exact absurd rfl hne
    | cons first rest ih =>
        obtain ⟨hfirst, hrest⟩ := List.forall_mem_cons.mp h
        cases rest with
        | nil =>
            rw [List.intercalate_singleton]
            exact .one hfirst
        | cons second rest =>
            rw [List.intercalate_cons_cons, List.append_assoc]
            exact .more hfirst (ih hrest (List.cons_ne_nil second rest))

theorem isValidName_iff {written : String} :
    isValidName written = true ↔ ValidName written.toList := by
  have hbody : isValidName written = true ↔ Identifiers (dropLeadingDot written.toList) := by
    rw [isValidName, List.all_eq_true, identifiers_iff]
    exact forall₂_congr fun segment _ => isIdentifier_iff
  rw [hbody]
  constructor
  · intro h
    unfold dropLeadingDot at h
    split at h
    · next rest heq =>
        rw [heq]
        exact .dotted h
    · exact .plain h
  · intro h
    generalize written.toList = text at h
    cases h with
    | dotted h => exact h
    | plain h =>
        -- What begins with an identifier does not begin with a dot.
        unfold dropLeadingDot
        split
        · next rest =>
            rw [identifiers_iff, ← List.nil_append ('.' :: rest),
              List.splitOn_append_cons_self_of_not_mem List.not_mem_nil] at h
            cases h [] List.mem_cons_self
        · exact h

/-- A variable with well formed parts is what its display stands for in every context, so it is told
apart by its display, and so is a well formed context. A name is valid exactly if it is one of the
grammar, and what a name stands for in a well formed context is well formed, so its display stands
for it in all others. -/
theorem names_round_trip (active : ContextPath) :
    (∀ name : QualifiedName, name.WellFormed → qualify active name.display = name) ∧
    (∀ name other : QualifiedName, name.WellFormed → other.WellFormed →
      name.display = other.display → name = other) ∧
    (∀ path : ContextPath, path.WellFormed → ContextPath.parse path.display = path) ∧
    (∀ written, isValidName written = true ↔ ValidName written.toList) ∧
    (active.WellFormed → ∀ written, isValidName written = true →
      (qualify active written).WellFormed ∧
      ∀ other, qualify other (qualify active written).display = qualify active written) := by
  refine ⟨fun name h => h.qualify_display active, ?_, fun path h => h.ofChars_display,
    fun written => isValidName_iff, fun hactive written _ => ?_⟩
  · intro name other hname hother heq
    rw [← hname.qualify_display active, heq, hother.qualify_display active]
  · have hformed := qualify_wellFormed hactive written
    exact ⟨hformed, hformed.qualify_display⟩

/-- A variable two contexts deep. -/
def nestedName : QualifiedName := ⟨⟨["s", "sub"]⟩, "x"⟩

/-- Seen from a context of its own, the variable is the only one with its display, and a plain name
is found again from there too. -/
theorem names_round_trip_nested :
    nestedName.WellFormed ∧ qualify ⟨["a"]⟩ "s.sub.x" = nestedName ∧
      (∀ other : QualifiedName, other.WellFormed → other.display = "s.sub.x" →
        other = nestedName) ∧
      ContextPath.parse "s.sub" = nestedName.context ∧
      ValidName "y_1".toList ∧ qualify nestedName.context (qualify ⟨["a"]⟩ "y_1").display =
        ⟨⟨["a"]⟩, "y_1"⟩ := by
  have hname : nestedName.WellFormed := by decide +kernel
  have hactive : ContextPath.WellFormed ⟨["a"]⟩ := by decide +kernel
  have hvalid : isValidName "y_1" = true := by decide +kernel
  obtain ⟨hqualify, hinjective, hparse, hgrammar, hagain⟩ := names_round_trip ⟨["a"]⟩
  refine ⟨hname, hqualify nestedName hname, fun other hother heq => ?_,
    hparse nestedName.context hname.context, (hgrammar "y_1").mp hvalid, ?_⟩
  · exact hinjective other nestedName hother hname heq
  · exact (hagain hactive "y_1" hvalid).2 nestedName.context

end Memograph
