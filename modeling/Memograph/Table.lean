/-! Finite tables that keep their keys in the order of first insertion. Writing a key that is
already there replaces its entry in place. The view of a table is its look-up `get?` together with
its list of `keys`; each operation says what it does to the two. -/

namespace Memograph

/-- A finite map whose keys stay in the order in which they first came in. -/
structure Table (κ ν : Type) where
  entries : List (κ × ν)
  distinct : (entries.map Prod.fst).Nodup
  deriving DecidableEq

namespace Table

variable {κ ν μ : Type}

def empty : Table κ ν := ⟨[], List.nodup_nil⟩

instance : EmptyCollection (Table κ ν) := ⟨empty⟩
instance : Inhabited (Table κ ν) := ⟨empty⟩

/-- The keys, oldest first. -/
def keys (t : Table κ ν) : List κ := t.entries.map Prod.fst

/-- The values, in the order of their keys. -/
def values (t : Table κ ν) : List ν := t.entries.map Prod.snd

def size (t : Table κ ν) : Nat := t.entries.length

def mapValues (f : ν → μ) (t : Table κ ν) : Table κ μ :=
  ⟨t.entries.map fun entry => (entry.1, f entry.2), by
    simpa [List.map_map, Function.comp_def] using t.distinct⟩

def filterValues (p : ν → Bool) (t : Table κ ν) : Table κ ν :=
  ⟨t.entries.filter fun entry => p entry.2,
    t.distinct.sublist (List.filter_sublist.map Prod.fst)⟩

theorem length_keys (t : Table κ ν) : t.keys.length = t.size := List.length_map _

theorem size_mapValues (f : ν → μ) (t : Table κ ν) : (t.mapValues f).size = t.size :=
  List.length_map _

@[simp] theorem keys_empty : (∅ : Table κ ν).keys = [] := rfl

@[simp] theorem keys_mapValues (f : ν → μ) (t : Table κ ν) : (t.mapValues f).keys = t.keys := by
  simp [keys, mapValues, List.map_map, Function.comp_def]

theorem mapValues_mapValues {ρ : Type} (f : ν → μ) (g : μ → ρ) (t : Table κ ν) :
    (t.mapValues f).mapValues g = t.mapValues fun value => g (f value) := by
  simp [mapValues, List.map_map, Function.comp_def]

theorem map_values (f : ν → μ) (t : Table κ ν) : t.values.map f = (t.mapValues f).values := by
  simp [values, mapValues]

variable [DecidableEq κ]

/-- The value of the first entry at a key. -/
def find (key : κ) : List (κ × ν) → Option ν
  | [] => none
  | (k, v) :: rest => if key = k then some v else find key rest

def get? (t : Table κ ν) (key : κ) : Option ν := find key t.entries

def contains (t : Table κ ν) (key : κ) : Bool := (t.get? key).isSome

/-- Entries after a write: in place where the key is found, at the end otherwise. -/
def write (key : κ) (value : ν) : List (κ × ν) → List (κ × ν)
  | [] => [(key, value)]
  | (k, v) :: rest => if k = key then (key, value) :: rest else (k, v) :: write key value rest

theorem map_fst_write (key : κ) (value : ν) (entries : List (κ × ν)) :
    (write key value entries).map Prod.fst =
      if key ∈ entries.map Prod.fst then entries.map Prod.fst
      else entries.map Prod.fst ++ [key] := by
  induction entries with
  | nil => simp [write]
  | cons entry rest ih =>
    obtain ⟨k, v⟩ := entry
    by_cases h : k = key
    · simp [write, h]
    · have h' : key ≠ k := fun e => h e.symm
      by_cases hm : key ∈ rest.map Prod.fst <;> simp_all [write]

theorem nodup_map_fst_write (key : κ) (value : ν) {entries : List (κ × ν)}
    (h : (entries.map Prod.fst).Nodup) : ((write key value entries).map Prod.fst).Nodup := by
  rw [map_fst_write]
  split
  · exact h
  · next hk =>
    refine List.nodup_append.2 ⟨h, by simp, ?_⟩
    intro a ha b hb hab
    simp only [List.mem_singleton] at hb
    exact hk (hb ▸ hab ▸ ha)

theorem find_write (key : κ) (value : ν) (entries : List (κ × ν)) (k : κ) :
    find k (write key value entries) = if k = key then some value else find k entries := by
  induction entries with
  | nil => simp [write, find]
  | cons entry rest ih =>
    obtain ⟨k', v⟩ := entry
    by_cases h : k' = key
    · by_cases hk : k = key <;> simp [write, find, h, hk]
    · by_cases hk : k = k' <;> simp [write, find, h, hk, ih]

/-- Sets the value at a key, which keeps its place if it has one and goes last if not. -/
def insert (t : Table κ ν) (key : κ) (value : ν) : Table κ ν :=
  ⟨write key value t.entries, nodup_map_fst_write key value t.distinct⟩

/-- Drops a key, closing the gap. -/
def erase (t : Table κ ν) (key : κ) : Table κ ν :=
  ⟨t.entries.filter fun entry => entry.1 ≠ key,
    t.distinct.sublist (List.filter_sublist.map Prod.fst)⟩

/-- Sets the value at a key from what is there. -/
def alter (t : Table κ ν) (key : κ) (f : Option ν → ν) : Table κ ν :=
  t.insert key (f (t.get? key))

/-- Writes entries one after the other: the first sets a key's place and the last its value. -/
def ofList (entries : List (κ × ν)) : Table κ ν :=
  entries.foldl (fun t entry => t.insert entry.1 entry.2) ∅

/-- Whether two tables give the same value at every key, in whatever order. -/
def agrees [BEq ν] (t u : Table κ ν) : Bool :=
  t.size == u.size && t.entries.all fun entry => u.get? entry.1 == some entry.2

@[simp] theorem get?_empty (key : κ) : (∅ : Table κ ν).get? key = none := rfl

@[simp] theorem get?_insert (t : Table κ ν) (key : κ) (value : ν) (k : κ) :
    (t.insert key value).get? k = if k = key then some value else t.get? k :=
  find_write key value t.entries k

theorem keys_insert (t : Table κ ν) (key : κ) (value : ν) :
    (t.insert key value).keys = if key ∈ t.keys then t.keys else t.keys ++ [key] :=
  map_fst_write key value t.entries

theorem find_eq_none_iff (key : κ) (entries : List (κ × ν)) :
    find key entries = none ↔ key ∉ entries.map Prod.fst := by
  induction entries with
  | nil => simp [find]
  | cons entry rest ih =>
    by_cases h : key = entry.1 <;> simp_all [find]

theorem get?_eq_none_iff (t : Table κ ν) (key : κ) : t.get? key = none ↔ key ∉ t.keys :=
  find_eq_none_iff key t.entries

theorem mem_keys_of_get? {t : Table κ ν} {key : κ} {value : ν} (h : t.get? key = some value) :
    key ∈ t.keys :=
  Decidable.byContradiction fun hkey => by
    rw [(get?_eq_none_iff t key).mpr hkey] at h
    cases h

theorem mem_of_find {key : κ} {value : ν} {entries : List (κ × ν)}
    (h : find key entries = some value) : (key, value) ∈ entries := by
  induction entries with
  | nil => cases h
  | cons entry rest ih =>
    by_cases hkey : key = entry.1
    · simp only [find, hkey, if_true, Option.some.injEq] at h
      rw [hkey, ← h]
      exact List.mem_cons_self
    · simp only [find, hkey, if_false] at h
      exact List.mem_cons_of_mem _ (ih h)

theorem mem_values_of_get? {t : Table κ ν} {key : κ} {value : ν} (h : t.get? key = some value) :
    value ∈ t.values :=
  List.mem_map_of_mem (f := Prod.snd) (mem_of_find h)

theorem find_of_mem {key : κ} {value : ν} {entries : List (κ × ν)}
    (hdistinct : (entries.map Prod.fst).Nodup) (h : (key, value) ∈ entries) :
    find key entries = some value := by
  induction entries with
  | nil => cases h
  | cons entry rest ih =>
    obtain ⟨hfirst, hrest⟩ := List.nodup_cons.mp hdistinct
    rcases List.mem_cons.mp h with heq | hmem
    · rw [find, ← heq, if_pos rfl]
    · have hne : key ≠ entry.1 := by
        rintro rfl
        exact hfirst (List.mem_map.mpr ⟨_, hmem, rfl⟩)
      rw [find, if_neg hne, ih hrest hmem]

theorem get?_eq_some_iff (t : Table κ ν) (key : κ) (value : ν) :
    t.get? key = some value ↔ (key, value) ∈ t.entries :=
  ⟨mem_of_find, find_of_mem t.distinct⟩

theorem mem_values_iff (t : Table κ ν) (value : ν) :
    value ∈ t.values ↔ ∃ key, t.get? key = some value := by
  constructor
  · intro h
    obtain ⟨⟨key, found⟩, hmem, heq⟩ := List.mem_map.mp h
    cases heq
    exact ⟨key, (t.get?_eq_some_iff key found).mpr hmem⟩
  · rintro ⟨key, h⟩
    exact mem_values_of_get? h

@[simp] theorem get?_mapValues (f : ν → μ) (t : Table κ ν) (key : κ) :
    (t.mapValues f).get? key = (t.get? key).map f := by
  obtain ⟨entries, distinct⟩ := t
  simp only [get?, mapValues]
  clear distinct
  induction entries with
  | nil => rfl
  | cons entry rest ih =>
    by_cases h : key = entry.1 <;> simp [find, h, ih]

theorem map_write (f : ν → μ) (key : κ) (value : ν) (entries : List (κ × ν)) :
    (write key value entries).map (fun entry => (entry.1, f entry.2)) =
      write key (f value) (entries.map fun entry => (entry.1, f entry.2)) := by
  induction entries with
  | nil => rfl
  | cons entry rest ih =>
    by_cases h : entry.1 = key <;> simp [write, h, ih]

theorem mapValues_insert (f : ν → μ) (t : Table κ ν) (key : κ) (value : ν) :
    (t.insert key value).mapValues f = (t.mapValues f).insert key (f value) := by
  simp only [mapValues, insert, map_write]

theorem write_of_find {key : κ} {value : ν} {entries : List (κ × ν)}
    (h : find key entries = some value) : write key value entries = entries := by
  induction entries with
  | nil => cases h
  | cons entry rest ih =>
    obtain ⟨k, v⟩ := entry
    by_cases hkey : k = key
    · subst hkey
      simp only [find, if_true, Option.some.injEq] at h
      simp [write, h]
    · have hkey' : key ≠ k := fun heq => hkey heq.symm
      simp only [find, hkey', if_false] at h
      simp [write, hkey, ih h]

/-- Writing what is there changes nothing. -/
theorem insert_of_get? {t : Table κ ν} {key : κ} {value : ν} (h : t.get? key = some value) :
    t.insert key value = t := by
  obtain ⟨entries, distinct⟩ := t
  simp only [insert, mk.injEq]
  exact write_of_find h

/-- An entry may take the place of one that a function takes for the same. -/
theorem mapValues_insert_of_eq {f : ν → μ} {t : Table κ ν} {key : κ} {value later : ν}
    (h : t.get? key = some value) (hsame : f later = f value) :
    (t.insert key later).mapValues f = t.mapValues f := by
  rw [mapValues_insert]
  apply insert_of_get?
  rw [get?_mapValues, h, Option.map_some, hsame]

theorem write_of_find_eq_none {key : κ} (value : ν) {entries : List (κ × ν)}
    (h : find key entries = none) : write key value entries = entries ++ [(key, value)] := by
  induction entries with
  | nil => rfl
  | cons entry rest ih =>
    obtain ⟨k, v⟩ := entry
    by_cases hkey : key = k
    · simp [find, hkey] at h
    · have hkey' : k ≠ key := fun heq => hkey heq.symm
      simp only [find, hkey, if_false] at h
      simp [write, hkey', ih h]

theorem values_insert_of_get?_eq_none {t : Table κ ν} {key : κ} (value : ν)
    (h : t.get? key = none) : (t.insert key value).values = t.values ++ [value] := by
  change (write key value t.entries).map Prod.snd = t.entries.map Prod.snd ++ [value]
  rw [write_of_find_eq_none value h, List.map_append]
  rfl

theorem perm_write_of_find {key : κ} {old : ν} (value : ν) {entries : List (κ × ν)}
    (h : find key entries = some old) :
    List.Perm (old :: (write key value entries).map Prod.snd)
      (value :: entries.map Prod.snd) := by
  induction entries with
  | nil => cases h
  | cons entry rest ih =>
    obtain ⟨k, v⟩ := entry
    by_cases hkey : key = k
    · subst hkey
      simp only [find, if_true, Option.some.injEq] at h
      subst h
      simp only [write, if_true, List.map_cons]
      exact List.Perm.swap _ _ _
    · have hkey' : k ≠ key := fun heq => hkey heq.symm
      simp only [find, hkey, if_false] at h
      simp only [write, hkey', if_false, List.map_cons]
      calc List.Perm (old :: v :: (write key value rest).map Prod.snd)
            (v :: old :: (write key value rest).map Prod.snd) := List.Perm.swap _ _ _
        List.Perm _ (v :: value :: rest.map Prod.snd) := (ih h).cons v
        List.Perm _ (value :: v :: rest.map Prod.snd) := List.Perm.swap _ _ _

/-- An overwritten value makes place for the new one. -/
theorem perm_values_insert {t : Table κ ν} {key : κ} {old : ν} (value : ν)
    (h : t.get? key = some old) :
    List.Perm (old :: (t.insert key value).values) (value :: t.values) :=
  perm_write_of_find value h

theorem find_filter_of_nodup (p : κ × ν → Bool) (key : κ) {entries : List (κ × ν)}
    (h : (entries.map Prod.fst).Nodup) :
    find key (entries.filter p) = (find key entries).filter fun value => p (key, value) := by
  induction entries with
  | nil => rfl
  | cons entry rest ih =>
    obtain ⟨hfirst, hrest⟩ := List.nodup_cons.mp h
    by_cases hkey : key = entry.1
    · subst hkey
      have hnone : find entry.1 rest = none := (find_eq_none_iff entry.1 rest).mpr hfirst
      by_cases hp : p entry <;> simp [find, Option.filter, hp, ih hrest, hnone]
    · by_cases hp : p entry <;> simp [find, hp, hkey, ih hrest]

@[simp] theorem get?_filterValues (p : ν → Bool) (t : Table κ ν) (key : κ) :
    (t.filterValues p).get? key = (t.get? key).filter p :=
  find_filter_of_nodup (fun entry => p entry.2) key t.distinct

@[simp] theorem get?_erase (t : Table κ ν) (key k : κ) :
    (t.erase key).get? k = if k = key then none else t.get? k := by
  rw [get?, erase, find_filter_of_nodup _ _ t.distinct]
  by_cases h : k = key
  · cases hfind : find k t.entries <;> simp [Option.filter, h]
  · cases hfind : find k t.entries <;> simp [get?, Option.filter, h, hfind]

theorem keys_erase (t : Table κ ν) (key : κ) :
    (t.erase key).keys = t.keys.filter fun k => k ≠ key := by
  simp only [keys, erase, List.filter_map]
  rfl

theorem contains_iff (t : Table κ ν) (key : κ) : t.contains key = true ↔ key ∈ t.keys := by
  rw [contains, Option.isSome_iff_ne_none, ne_eq, get?_eq_none_iff, Decidable.not_not]

theorem get?_foldl_insert (f : κ → ν) (keys : List κ) (t : Table κ ν) (k : κ) :
    ((keys.map fun key => (key, f key)).foldl (fun t entry => t.insert entry.1 entry.2) t).get? k =
      if k ∈ keys then some (f k) else t.get? k := by
  induction keys generalizing t with
  | nil => simp
  | cons key keys ih =>
    rw [List.map_cons, List.foldl_cons, ih, get?_insert]
    by_cases h : k = key
    · simp [h]
    · simp [h]

/-- A table written from a function has the function's value at each key. -/
theorem get?_ofList_map (f : κ → ν) (keys : List κ) (k : κ) :
    (ofList (keys.map fun key => (key, f key))).get? k = if k ∈ keys then some (f k) else none :=
  get?_foldl_insert f keys ∅ k

end Table
end Memograph
