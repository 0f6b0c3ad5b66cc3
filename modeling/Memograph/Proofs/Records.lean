import Mathlib.Algebra.Order.BigOperators.Group.List
import Mathlib.Algebra.Order.Ring.Nat
import Mathlib.Data.List.Nodup
import Memograph.Json.Readable
import Memograph.Json.Record
import Memograph.Proofs.Reading

/-! Records in documents. A field of a record without repeated keys is found under its key, fields
with different keys are different entries, and what is asked of a document, that it is readable
or printable, is asked of each of its parts. -/

namespace Memograph.Json

/-! ### Fields -/

theorem keyed?_eq_some_iff {entries : List (Option String × Json)}
    {known : List (String × Json)} :
    keyed? entries = some known ↔ entries = known.map fun entry => (some entry.1, entry.2) := by
  induction entries generalizing known with
  | nil => cases known <;> simp [keyed?]
  | cons entry entries ih =>
      obtain ⟨key, value⟩ := entry
      cases key with
      | none => cases known <;> simp [keyed?]
      | some key =>
          rw [keyed?, Option.map_eq_some_iff]
          cases known with
          | nil => simp
          | cons first known =>
              simp only [List.map_cons, List.cons.injEq, Prod.mk.injEq, Option.some.injEq, ← ih]
              constructor
              · rintro ⟨rest, hrest, rfl, rfl⟩
                exact ⟨⟨rfl, rfl⟩, hrest⟩
              · rintro ⟨⟨rfl, rfl⟩, hrest⟩
                exact ⟨known, hrest, rfl, rfl⟩

theorem keyed?_ofEntries (entries : List (String × Json)) :
    keyed? (entries.map fun entry => (some entry.1, entry.2)) = some entries :=
  keyed?_eq_some_iff.mpr rfl

theorem mem_of_fieldOnce? {entries : List (String × Json)} {key : String} {value : Json}
    (h : fieldOnce? entries key = some (some value)) : (key, value) ∈ entries := by
  rw [fieldOnce?] at h
  split at h
  · cases h
  · next other found heq =>
    cases h
    have hmem : (other, value) ∈ entries.filter fun entry => entry.1 == key := by
      rw [heq]
      exact List.mem_singleton_self _
    obtain ⟨hentry, hkey⟩ := List.mem_filter.mp hmem
    exact beq_iff_eq.mp hkey ▸ hentry
  · cases h

theorem filter_key_of_mem {entries : List (String × Json)} {key : String} {value : Json}
    (hdistinct : (entries.map Prod.fst).Nodup) (h : (key, value) ∈ entries) :
    (entries.filter fun entry => entry.1 == key) = [(key, value)] := by
  induction entries with
  | nil => cases h
  | cons entry entries ih =>
      obtain ⟨hfirst, hrest⟩ := List.nodup_cons.mp hdistinct
      rcases List.mem_cons.mp h with rfl | hmem
      · rw [List.filter_cons, if_pos (beq_self_eq_true key)]
        refine congrArg _ (List.filter_eq_nil_iff.mpr fun other hother heq => hfirst ?_)
        exact List.mem_map.mpr ⟨other, hother, beq_iff_eq.mp heq⟩
      · have hne : ¬(entry.1 == key) = true := fun heq =>
          hfirst (List.mem_map.mpr ⟨_, hmem, (beq_iff_eq.mp heq).symm⟩)
        rw [List.filter_cons, if_neg hne, ih hrest hmem]

/-- A field of a record without repeated keys is found. -/
theorem fieldOnce?_of_mem {entries : List (String × Json)} {key : String} {value : Json}
    (hdistinct : (entries.map Prod.fst).Nodup) (h : (key, value) ∈ entries) :
    fieldOnce? entries key = some (some value) := by
  rw [fieldOnce?, filter_key_of_mem hdistinct h]

theorem fieldsOnce?_of_subset {entries fields : List (String × Json)}
    (hdistinct : (entries.map Prod.fst).Nodup) (h : fields ⊆ entries) :
    fieldsOnce? entries (fields.map Prod.fst) = some (fields.map fun field => some field.2) := by
  induction fields with
  | nil => rfl
  | cons field fields ih =>
      obtain ⟨hfield, hfields⟩ := List.cons_subset.mp h
      rw [List.map_cons, fieldsOnce?, fieldOnce?_of_mem hdistinct hfield, ih hfields]
      rfl

theorem fieldsRequired?_of_subset {entries fields : List (String × Json)}
    (hdistinct : (entries.map Prod.fst).Nodup) (h : fields ⊆ entries) :
    fieldsRequired? entries (fields.map Prod.fst) = some (fields.map Prod.snd) := by
  induction fields with
  | nil => rfl
  | cons field fields ih =>
      obtain ⟨hfield, hfields⟩ := List.cons_subset.mp h
      rw [List.map_cons, fieldsRequired?, fieldRequired?, fieldOnce?_of_mem hdistinct hfield,
        ih hfields]
      rfl

/-- A record is read from the object of its fields. -/
theorem record?_ofEntries {keys : List String} {entries : List (String × Json)}
    (hkeys : entries.map Prod.fst = keys) (hdistinct : keys.Nodup) :
    record? keys (ofEntries entries) = some (entries.map fun entry => some entry.2) := by
  subst hkeys
  rw [ofEntries, record?, keyed?_ofEntries, Option.bind_some]
  exact fieldsOnce?_of_subset hdistinct (List.Subset.refl entries)

/-- The required fields are entries with different keys. -/
theorem zip_subset_of_fieldsRequired? {entries : List (String × Json)} {keys : List String}
    {fields : List Json} (h : fieldsRequired? entries keys = some fields) :
    fields.length = keys.length ∧ keys.zip fields ⊆ entries := by
  induction keys generalizing fields with
  | nil =>
      cases h
      exact ⟨rfl, List.nil_subset _⟩
  | cons key keys ih =>
      rw [fieldsRequired?] at h
      obtain ⟨value, hvalue, h⟩ := Option.bind_eq_some_iff.mp h
      obtain ⟨values, hvalues, h⟩ := Option.bind_eq_some_iff.mp h
      cases h
      obtain ⟨hlength, hsubset⟩ := ih hvalues
      obtain ⟨found, hfound, heq⟩ := Option.bind_eq_some_iff.mp hvalue
      cases heq
      exact ⟨congrArg Nat.succ hlength, List.cons_subset.mpr ⟨mem_of_fieldOnce? hfound, hsubset⟩⟩

/-! ### Depth and size -/

theorem readableItems_iff {limit : Nat} {items : List Json} :
    readableItems limit items = true ↔ ∀ item ∈ items, item.readable limit = true := by
  induction items with
  | nil => simp [readableItems]
  | cons item items ih =>
      rw [readableItems, Bool.and_eq_true, ih, List.forall_mem_cons]

theorem readableEntries_iff {limit : Nat} {entries : List (Option String × Json)} :
    readableEntries limit entries = true ↔
      ∀ entry ∈ entries, entry.1.isSome = true ∧ entry.2.readable limit = true := by
  induction entries with
  | nil => simp [readableEntries]
  | cons entry entries ih =>
      rw [readableEntries, Bool.and_eq_true, Bool.and_eq_true, ih, List.forall_mem_cons]

theorem readable_ofEntries {limit : Nat} {entries : List (String × Json)}
    (h : ∀ entry ∈ entries, entry.2.readable limit = true) :
    (ofEntries entries).readable (limit + 1) = true := by
  rw [ofEntries, readable]
  refine readableEntries_iff.mpr fun entry hentry => ?_
  obtain ⟨known, hknown, rfl⟩ := List.mem_map.mp hentry
  exact ⟨rfl, h known hknown⟩

theorem printable_ofEntries {entries : List (String × Json)}
    (h : ∀ entry ∈ entries, entry.2.Printable) : (ofEntries entries).Printable := by
  rw [ofEntries, Printable]
  induction entries with
  | nil => trivial
  | cons entry entries ih =>
      obtain ⟨hfirst, hrest⟩ := List.forall_mem_cons.mp h
      exact ⟨rfl, hfirst, ih hrest⟩

mutual

/-- How many documents there are in a document, itself included. -/
def size : Json → Nat
  | .array items => 1 + sizeOfItems items
  | .object entries => 1 + sizeOfEntries entries
  | _ => 1

/-- The size of all items. -/
def sizeOfItems : List Json → Nat
  | [] => 0
  | item :: items => size item + sizeOfItems items

/-- The size of the values of all entries. -/
def sizeOfEntries : List (Option String × Json) → Nat
  | [] => 0
  | (_, value) :: entries => size value + sizeOfEntries entries

end

theorem sizeOfItems_eq (items : List Json) : sizeOfItems items = (items.map size).sum := by
  induction items with
  | nil => rfl
  | cons item items ih => rw [sizeOfItems, ih, List.map_cons, List.sum_cons]

theorem sizeOfEntries_eq (entries : List (Option String × Json)) :
    sizeOfEntries entries = (entries.map fun entry => entry.2.size).sum := by
  induction entries with
  | nil => rfl
  | cons entry entries ih => rw [sizeOfEntries, ih, List.map_cons, List.sum_cons]

/-- Fields with different keys are no larger together than the record. -/
theorem sum_size_le_of_fieldsRequired? {entries : List (String × Json)} {keys : List String}
    {fields : List Json} (hkeys : keys.Nodup) (h : fieldsRequired? entries keys = some fields) :
    (fields.map size).sum ≤ (entries.map fun entry => entry.2.size).sum := by
  obtain ⟨hlength, hsubset⟩ := zip_subset_of_fieldsRequired? h
  have hdistinct : (keys.zip fields).Nodup := by
    refine List.Nodup.of_map Prod.fst ?_
    rw [List.map_fst_zip hlength.ge]
    exact hkeys
  obtain ⟨chosen, hperm, hsublist⟩ := List.subperm_of_subset hdistinct hsubset
  calc (fields.map size).sum
      = ((keys.zip fields).map fun entry => entry.2.size).sum := by
        conv_lhs => rw [← List.map_snd_zip hlength.le, List.map_map]
        rfl
    _ = (chosen.map fun entry => entry.2.size).sum := (hperm.map _).sum_eq.symm
    _ ≤ (entries.map fun entry => entry.2.size).sum :=
        (hsublist.map _).sum_le_sum fun _ _ => Nat.zero_le _

theorem exists_mem_of_fieldsOnce? {entries : List (String × Json)} {keys : List String}
    {fields : List (Option Json)} {value : Json} (h : fieldsOnce? entries keys = some fields)
    (hmem : some value ∈ fields) : ∃ key, (key, value) ∈ entries := by
  induction keys generalizing fields with
  | nil =>
      cases h
      cases hmem
  | cons key keys ih =>
      obtain ⟨first, hfirst, h⟩ := Option.bind_eq_some_iff.mp h
      obtain ⟨rest, hrest, h⟩ := Option.bind_eq_some_iff.mp h
      cases h
      rcases List.mem_cons.mp hmem with rfl | hmem
      · exact ⟨key, mem_of_fieldOnce? hfirst⟩
      · exact ih hrest hmem

/-- A field of a record is no larger than the record. -/
theorem size_le_of_record? {keys : List String} {json value : Json} {fields : List (Option Json)}
    (h : record? keys json = some fields) (hmem : some value ∈ fields) :
    value.size ≤ json.size := by
  cases json with
  | null => cases h
  | bool b => cases h
  | number numeral => cases h
  | text content => cases h
  | array items =>
      rw [record?] at h
      split at h
      · cases h
        rcases List.mem_append.mp hmem with hmem | hmem
        · obtain ⟨item, hitem, heq⟩ := List.mem_map.mp hmem
          cases heq
          have hle := List.single_le_sum (fun _ _ => Nat.zero_le _) _
            (List.mem_map_of_mem (f := size) hitem)
          rw [size, sizeOfItems_eq]
          exact hle.trans (Nat.le_add_left _ _)
        · cases List.eq_of_mem_replicate hmem
      · cases h
  | object entries =>
      obtain ⟨known, hknown, hfields⟩ := Option.bind_eq_some_iff.mp h
      obtain ⟨key, hkey⟩ := exists_mem_of_fieldsOnce? hfields hmem
      have hle := List.single_le_sum (fun _ _ => Nat.zero_le _) _
        (List.mem_map_of_mem (f := fun entry : String × Json => entry.2.size) hkey)
      rw [size, sizeOfEntries_eq, keyed?_eq_some_iff.mp hknown, List.map_map]
      exact hle.trans (Nat.le_add_left _ _)

/-! ### The size of a text -/

/-- The size of what an open array or object has so far, itself included. -/
def Opened.size : Opened → Nat
  | .array items => 1 + sizeOfItems items
  | .object entries _ => 1 + sizeOfEntries entries

/-- The size of all that was read. -/
def Progress.size : Progress → Nat
  | .reading state => (state.opened.map Opened.size).sum
  | .complete document => document.size

theorem size_place (value : Json) (opened : List Opened) :
    (place value opened).size = value.size + (opened.map Opened.size).sum := by
  cases opened with
  | nil => rfl
  | cons innermost outer =>
      cases innermost with
      | array items =>
          rw [place, Progress.size, List.map_cons, List.map_cons, List.sum_cons, List.sum_cons,
            Opened.size, Opened.size, sizeOfItems]
          omega
      | object entries key =>
          rw [place, Progress.size, List.map_cons, List.map_cons, List.sum_cons, List.sum_cons,
            Opened.size, Opened.size, sizeOfEntries]
          omega

theorem size_array_reverse (items : List Json) :
    (Json.array items.reverse).size = 1 + sizeOfItems items := by
  rw [size, sizeOfItems_eq, sizeOfItems_eq, List.map_reverse, List.sum_reverse]

theorem size_object_reverse (entries : List (Option String × Json)) :
    (Json.object entries.reverse).size = 1 + sizeOfEntries entries := by
  rw [size, sizeOfEntries_eq, sizeOfEntries_eq, List.map_reverse, List.sum_reverse]

theorem size_close {opened outer : List Opened} {value : Json}
    (h : close opened = some (value, outer)) :
    value.size + (outer.map Opened.size).sum = (opened.map Opened.size).sum := by
  cases opened with
  | nil => cases h
  | cons innermost rest =>
      cases innermost with
      | array items =>
          cases h
          rw [size_array_reverse, List.map_cons, List.sum_cons, Opened.size]
      | object entries key =>
          cases h
          rw [size_object_reverse, List.map_cons, List.sum_cons, Opened.size]

theorem size_beginValue {opened : List Opened} {token : Token} {progress : Progress}
    (h : beginValue opened token = some progress) :
    progress.size = 1 + (opened.map Opened.size).sum := by
  cases token <;> cases h
  case openArray => rfl
  case openObject => rfl
  all_goals
    rw [size_place]
    rfl

/-- A token adds one to the size of what was read, at most. -/
theorem size_advance {state : Reading} {token : Token} {progress : Progress}
    (h : advance state token = some progress) :
    progress.size ≤ 1 + (state.opened.map Opened.size).sum := by
  have hclose {value : Json} {outer : List Opened}
      (hvalue : close state.opened = some (value, outer)) :
      (place value outer).size ≤ 1 + (state.opened.map Opened.size).sum := by
    have := size_close hvalue
    rw [size_place]
    omega
  unfold advance at h
  split at h
  · exact (size_beginValue h).le
  · obtain ⟨⟨value, outer⟩, hvalue, rfl⟩ := Option.map_eq_some_iff.mp h
    exact hclose hvalue
  · exact (size_beginValue h).le
  · cases h
    exact Nat.le_add_left _ _
  · cases h
    exact Nat.le_add_left _ _
  · obtain ⟨⟨value, outer⟩, hvalue, rfl⟩ := Option.map_eq_some_iff.mp h
    exact hclose hvalue
  · next hopened =>
    cases h
    rw [hopened]
    exact Nat.le_add_left _ _
  · next hopened =>
    cases h
    rw [hopened]
    exact Nat.le_add_left _ _
  · next hopened =>
    cases h
    rw [hopened]
    exact Nat.le_add_left _ _
  · next hopened =>
    cases h
    refine hclose ?_
    rw [hopened, close]
  · next hopened =>
    cases h
    refine hclose ?_
    rw [hopened, close]
  · cases h

theorem size_le_of_readTokens {progress : Progress} {tokens : List Token} {json : Json}
    (h : readTokens progress tokens = some json) : json.size ≤ progress.size + tokens.length := by
  induction tokens generalizing progress with
  | nil =>
      cases progress with
      | reading state => cases h
      | complete document =>
          cases h
          exact Nat.le_refl _
  | cons token tokens ih =>
      cases progress with
      | complete document => cases h
      | reading state =>
          rw [readTokens] at h
          split at h
          · next next hadvance =>
            have hstep := size_advance hadvance
            have hrest := ih h
            rw [Progress.size, List.length_cons]
            omega
          · cases h

theorem length_le_of_scanUpTo {n : Nat} {input : List Char} {tokens : List Token}
    (h : scanUpTo n input = some tokens) : tokens.length ≤ n := by
  induction n generalizing input tokens with
  | zero =>
      cases input with
      | nil =>
          cases h
          exact Nat.le_refl _
      | cons c rest => cases h
  | succ n ih =>
      cases input with
      | nil =>
          cases h
          exact Nat.zero_le _
      | cons c rest =>
          rw [scanUpTo] at h
          split at h
          · exact (ih h).trans (Nat.le_succ n)
          · obtain ⟨⟨token, after⟩, -, h⟩ := Option.bind_eq_some_iff.mp h
            obtain ⟨more, hmore, h⟩ := Option.bind_eq_some_iff.mp h
            cases h
            exact Nat.succ_le_succ (ih hmore)

/-- A document has no more parts than its text has characters. -/
theorem size_le_of_parse? {text : String} {json : Json} (h : parse? text = some json) :
    json.size ≤ text.length := by
  rw [parse?] at h
  split at h
  · next tokens hscan =>
    have hsize := size_le_of_readTokens h
    have hlength := length_le_of_scanUpTo hscan
    rw [String.length_toList] at hlength
    change json.size ≤ 0 + tokens.length at hsize
    omega
  · cases h

end Memograph.Json
