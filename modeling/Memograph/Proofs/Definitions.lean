import Memograph.Definition.Json
import Memograph.Proofs.Documents

/-! Definitions from their texts. The counts of a usage fit sixty-four bits, those that were written
because they were read so, and those that were counted because a body has no more names than its
text has characters. So a definition that was read is read again from its own text. -/

namespace Memograph

/-! ### Tables -/

namespace Table

variable {κ ν : Type} [DecidableEq κ]

theorem entries_foldl_insert (entries : List (κ × ν)) (t : Table κ ν)
    (h : ((t.entries ++ entries).map Prod.fst).Nodup) :
    (entries.foldl (fun t entry => t.insert entry.1 entry.2) t).entries = t.entries ++ entries := by
  induction entries generalizing t with
  | nil => rw [List.foldl_nil, List.append_nil]
  | cons entry entries ih =>
      have hnew : find entry.1 t.entries = none := by
        rw [find_eq_none_iff]
        intro hmem
        rw [List.map_append, List.nodup_append] at h
        exact h.2.2 _ hmem _ List.mem_cons_self rfl
      have hinsert : (t.insert entry.1 entry.2).entries = t.entries ++ [entry] :=
        write_of_find_eq_none entry.2 hnew
      rw [List.foldl_cons, ih, hinsert, List.append_assoc]
      · rfl
      · rw [hinsert, List.append_assoc]
        exact h

/-- A table is written again from its entries. -/
theorem ofList_entries (t : Table κ ν) : ofList t.entries = t := by
  have h := entries_foldl_insert t.entries ∅ t.distinct
  obtain ⟨entries, distinct⟩ := t
  rw [ofList]
  generalize List.foldl _ _ _ = written at h
  obtain ⟨entries', distinct'⟩ := written
  cases h
  rfl

theorem mem_of_mem_entries_insert {t : Table κ ν} {key : κ} {value : ν} {entry : κ × ν}
    (h : entry ∈ (t.insert key value).entries) : entry = (key, value) ∨ entry ∈ t.entries := by
  have hfound := ((t.insert key value).get?_eq_some_iff entry.1 entry.2).mpr h
  rw [get?_insert] at hfound
  split at hfound
  · next hkey =>
    cases hfound
    exact Or.inl (Prod.ext hkey rfl)
  · exact Or.inr ((t.get?_eq_some_iff entry.1 entry.2).mp hfound)

theorem mem_of_mem_entries_ofList {entries : List (κ × ν)} {entry : κ × ν}
    (h : entry ∈ (ofList entries).entries) : entry ∈ entries := by
  have hall : ∀ (entries : List (κ × ν)) (t : Table κ ν),
      entry ∈ (entries.foldl (fun t entry => t.insert entry.1 entry.2) t).entries →
        entry ∈ entries ∨ entry ∈ t.entries := by
    intro entries
    induction entries with
    | nil => exact fun t h => Or.inr h
    | cons first entries ih =>
        intro t h
        rcases ih _ h with hrest | hinsert
        · exact Or.inl (List.mem_cons_of_mem _ hrest)
        · rcases mem_of_mem_entries_insert hinsert with rfl | hold
          · exact Or.inl List.mem_cons_self
          · exact Or.inr hold
  rcases hall entries ∅ h with hmem | hmem
  · exact hmem
  · cases hmem

end Table

/-! ### Usages -/

namespace Usage

/-- The sum of all counts. -/
def total (usage : Usage) : Nat :=
  usage.accessing.values.sum + usage.localAssignment.values.sum + usage.globalAssignment.values.sum

theorem sum_countUp (table : Table String Nat) (written : String) (count : Nat) :
    (countUp table written count).values.sum = table.values.sum + count := by
  rw [countUp, Table.alter]
  cases hold : table.get? written with
  | none =>
      rw [Table.values_insert_of_get?_eq_none _ hold, List.sum_append]
      simp
  | some old =>
      have hsum := (Table.perm_values_insert (old + count) hold).sum_eq
      rw [List.sum_cons, List.sum_cons] at hsum
      rw [Option.getD_some]
      omega

theorem total_addAccess (usage : Usage) (written : String) :
    (usage.addAccess written).total = usage.total + 1 := by
  simp only [total, addAccess, sum_countUp]
  omega

theorem total_addAssignment (usage : Usage) (written : String) :
    (usage.addAssignment written).total = usage.total + 1 := by
  unfold addAssignment
  split <;> simp only [total, sum_countUp] <;> omega

mutual

/-- A body is counted to no more than its size. -/
theorem total_addExpr : ∀ (usage : Usage) (expr : Expr),
    (usage.addExpr expr).total ≤ usage.total + expr.size
  | usage, .constant _ => by
      rw [addExpr]
      omega
  | usage, .name written => by
      rw [addExpr, total_addAccess, Expr.size]
  | usage, .vector items => by
      have := total_addExprs usage items
      rw [addExpr, Expr.size]
      omega
  | usage, .item target index => by
      have := total_addExpr usage target
      have := total_addExpr (usage.addExpr target) index
      rw [addExpr, Expr.size]
      omega
  | usage, .unary _ operand => by
      have := total_addExpr usage operand
      rw [addExpr, Expr.size]
      omega
  | usage, .binary _ left right => by
      have := total_addExpr usage left
      have := total_addExpr (usage.addExpr left) right
      rw [addExpr, Expr.size]
      omega
  | usage, .assign written value => by
      have := total_addExpr usage value
      rw [addExpr, total_addAssignment, Expr.size]
      omega
  | usage, .sequence statements => by
      have := total_addExprs usage statements
      rw [addExpr, Expr.size]
      omega

theorem total_addExprs : ∀ (usage : Usage) (exprs : List Expr),
    (usage.addExprs exprs).total ≤ usage.total + Expr.sizeOfAll exprs
  | usage, [] => by
      rw [addExprs, Expr.sizeOfAll]
      exact Nat.le_refl _
  | usage, expr :: exprs => by
      have := total_addExpr usage expr
      have := total_addExprs (usage.addExpr expr) exprs
      rw [addExprs, Expr.sizeOfAll]
      omega

end

/-- Whether all counts of a table fit sixty-four bits. -/
def Counted (table : Table String Nat) : Prop := ∀ entry ∈ table.entries, entry.2 < UInt64.size

/-- Whether all counts of a usage fit sixty-four bits. -/
structure AllCounted (usage : Usage) : Prop where
  accessing : Counted usage.accessing
  localAssignment : Counted usage.localAssignment
  globalAssignment : Counted usage.globalAssignment

theorem counted_of_sum_lt {table : Table String Nat} (h : table.values.sum < UInt64.size) :
    Counted table := by
  intro entry hentry
  have hmem : entry.2 ∈ table.values := List.mem_map_of_mem hentry
  exact (List.single_le_sum (fun _ _ => Nat.zero_le _) _ hmem).trans_lt h

theorem allCounted_of_total_lt {usage : Usage} (h : usage.total < UInt64.size) :
    usage.AllCounted := by
  unfold total at h
  refine ⟨counted_of_sum_lt ?_, counted_of_sum_lt ?_, counted_of_sum_lt ?_⟩ <;> omega

theorem counted_of_countsOfEntries? {entries : List (String × Json)}
    {counts : List (String × Nat)} (h : countsOfEntries? entries = some counts) :
    ∀ entry ∈ counts, entry.2 < UInt64.size := by
  induction entries generalizing counts with
  | nil =>
      cases h
      exact List.forall_mem_nil _
  | cons entry entries ih =>
      obtain ⟨written, value⟩ := entry
      cases value with
      | number numeral =>
          obtain ⟨count, hcount, h⟩ := Option.bind_eq_some_iff.mp h
          obtain ⟨rest, hrest, h⟩ := Option.bind_eq_some_iff.mp h
          cases h
          exact List.forall_mem_cons.mpr ⟨Numeral.lt_of_toCount? hcount, ih hrest⟩
      | null => cases h
      | bool b => cases h
      | text content => cases h
      | array items => cases h
      | object entries => cases h

theorem counted_of_tableOfJson? {json : Option Json} {table : Table String Nat}
    (h : tableOfJson? json = some table) : Counted table := by
  unfold tableOfJson? at h
  split at h
  · cases h
    exact List.forall_mem_nil _
  · obtain ⟨known, -, h⟩ := Option.bind_eq_some_iff.mp h
    obtain ⟨counts, hcounts, h⟩ := Option.bind_eq_some_iff.mp h
    cases h
    exact fun entry hentry =>
      counted_of_countsOfEntries? hcounts entry (Table.mem_of_mem_entries_ofList hentry)
  · cases h

theorem allCounted_of_ofJson? {json : Json} {usage : Usage} (h : ofJson? json = some usage) :
    usage.AllCounted := by
  unfold ofJson? at h
  split at h
  · obtain ⟨accessing, haccessing, h⟩ := Option.bind_eq_some_iff.mp h
    obtain ⟨locals, hlocals, h⟩ := Option.bind_eq_some_iff.mp h
    obtain ⟨globals, hglobals, h⟩ := Option.bind_eq_some_iff.mp h
    cases h
    exact ⟨counted_of_tableOfJson? haccessing, counted_of_tableOfJson? hlocals,
      counted_of_tableOfJson? hglobals⟩
  · cases h

/-! ### Usages from their documents -/

theorem countsOfEntries?_map {entries : List (String × Nat)}
    (h : ∀ entry ∈ entries, entry.2 < UInt64.size) :
    countsOfEntries? (entries.map fun entry => (entry.1, Json.ofNat entry.2)) = some entries := by
  induction entries with
  | nil => rfl
  | cons entry entries ih =>
      obtain ⟨hfirst, hrest⟩ := List.forall_mem_cons.mp h
      rw [List.map_cons, Json.ofNat, countsOfEntries?, Numeral.toCount?_ofNat hfirst, ih hrest]
      rfl

theorem tableOfJson?_tableToJson {table : Table String Nat} (h : Counted table) :
    tableOfJson? (some (tableToJson table)) = some table := by
  rw [tableToJson, Json.ofEntries, tableOfJson?, Json.keyed?_ofEntries]
  simp only [Option.bind_eq_bind, Option.bind_some, countsOfEntries?_map h, Table.ofList_entries]
  rfl

theorem ofJson?_toJson {usage : Usage} (h : usage.AllCounted) :
    ofJson? usage.toJson = some usage := by
  have hrecord : Json.record? keys usage.toJson =
      some [some (tableToJson usage.accessing), some (tableToJson usage.localAssignment),
        some (tableToJson usage.globalAssignment)] :=
    Json.record?_ofEntries rfl (by decide)
  rw [ofJson?, hrecord]
  simp only [Option.bind_eq_bind, Option.bind_some, tableOfJson?_tableToJson h.accessing,
    tableOfJson?_tableToJson h.localAssignment, tableOfJson?_tableToJson h.globalAssignment]
  rfl

theorem printable_tableToJson (table : Table String Nat) : (tableToJson table).Printable := by
  refine Json.printable_ofEntries fun entry hentry => ?_
  obtain ⟨counted, -, rfl⟩ := List.mem_map.mp hentry
  exact Numeral.wellFormed_ofNat counted.2

theorem printable_toJson (usage : Usage) : usage.toJson.Printable := by
  refine Json.printable_ofEntries (List.forall_mem_cons.mpr ⟨printable_tableToJson _, ?_⟩)
  refine List.forall_mem_cons.mpr ⟨printable_tableToJson _, ?_⟩
  exact List.forall_mem_singleton.mpr (printable_tableToJson _)

end Usage

/-! ### Definitions -/

namespace Definition

/-- A definition is read from its document if its usage and its body are. -/
theorem ofJson?_toJson {definition : Definition} (husage : definition.usage.AllCounted)
    (hbody : Expr.ofDocument? (Json.nestingLimit - 1) definition.body.toJson =
      some definition.body) :
    ofJson? definition.toJson = some definition := by
  obtain ⟨written, indexer, body, source, usage⟩ := definition
  have husage' : usageOfJson? (some usage.toJson) = some usage := Usage.ofJson?_toJson husage
  cases indexer with
  | none =>
      have hrecord : Json.record? keys (toJson ⟨written, none, body, source, usage⟩) =
          some [some (.ofString written), some .null, some body.toJson, some (.ofString source),
            some usage.toJson] :=
        Json.record?_ofEntries rfl (by decide)
      rw [ofJson?, hrecord]
      simp only [Json.ofString, indexerOfJson?, hbody, sourceOfJson?, husage', Option.bind_eq_bind,
        Option.bind_some]
      rfl
  | some indexer =>
      have hrecord : Json.record? keys (toJson ⟨written, some indexer, body, source, usage⟩) =
          some [some (.ofString written), some (.ofString indexer), some body.toJson,
            some (.ofString source), some usage.toJson] :=
        Json.record?_ofEntries rfl (by decide)
      rw [ofJson?, hrecord]
      simp only [Json.ofString, indexerOfJson?, hbody, sourceOfJson?, husage', Option.bind_eq_bind,
        Option.bind_some]
      rfl

theorem printable_toJson {definition : Definition} (h : definition.body.toJson.Printable) :
    definition.toJson.Printable := by
  refine Json.printable_ofEntries (List.forall_mem_cons.mpr ⟨rfl, ?_⟩)
  refine List.forall_mem_cons.mpr ⟨?_, List.forall_mem_cons.mpr ⟨h, ?_⟩⟩
  · cases definition.indexer with
    | none => trivial
    | some indexer => rfl
  · refine List.forall_mem_cons.mpr ⟨rfl, ?_⟩
    exact List.forall_mem_singleton.mpr (Usage.printable_toJson definition.usage)

/-- A completed definition is complete. -/
theorem completed_completed (definition : Definition) :
    definition.completed.completed = definition.completed := by
  unfold completed
  by_cases hempty : definition.usage.isEmpty = true
  · rw [if_pos hempty]
    split <;> rfl
  · rw [if_neg hempty, if_neg hempty]

/-- What the text of a definition gives: a definition whose usage may be empty, which is then
completed. -/
theorem ofText?_eq_some_iff {text : String} {definition : Definition} :
    ofText? text = some definition ↔
      ∃ given, (Json.parse? text).bind ofJson? = some given ∧ definition = given.completed := by
  rw [ofText?]
  cases Json.parse? text with
  | none => simp
  | some json =>
      rw [Option.bind_some, Option.bind_some, ofDocument?, Option.map_eq_some_iff]
      exact exists_congr fun given => and_congr_right fun _ => eq_comm

/-- The body of a definition is read from a part of its document, and its counts fit. -/
theorem exists_body_of_ofJson? {json : Json} {definition : Definition}
    (h : ofJson? json = some definition) :
    ∃ body : Json, body.size ≤ json.size ∧
      Expr.ofDocument? (Json.nestingLimit - 1) body = some definition.body ∧
      definition.usage.AllCounted := by
  unfold ofJson? at h
  split at h
  · next written indexer body source usage hrecord =>
    obtain ⟨indexer', -, h⟩ := Option.bind_eq_some_iff.mp h
    obtain ⟨body', hbody, h⟩ := Option.bind_eq_some_iff.mp h
    obtain ⟨source', -, h⟩ := Option.bind_eq_some_iff.mp h
    obtain ⟨usage', husage, h⟩ := Option.bind_eq_some_iff.mp h
    cases h
    refine ⟨body, Json.size_le_of_record? hrecord (by simp), hbody, ?_⟩
    cases usage with
    | none =>
        cases husage
        exact Usage.allCounted_of_total_lt (show Usage.empty.total < UInt64.size by decide)
    | some found => exact Usage.allCounted_of_ofJson? husage
  · cases h

/-- A definition that a text gives is read again from its own text, if the numeral of every float
in its body is read as that float; and if the text gives no usage, the definition is the one made of
its parts. -/
theorem text_round_trip {text : String} {definition : Definition}
    (h : ofText? text = some definition) (hlength : text.length < UInt64.size)
    (hfloats : ∀ x, .float x ∈ definition.body.numbers → ∀ n, Numeral.ofFloat? x = some n →
      Scalar.ofNumeral? n = some (.float x)) :
    ofText? definition.text = some definition ∧
      ∃ given, (Json.parse? text).bind ofJson? = some given ∧
        definition = if given.usage.isEmpty then
          ofBody given.written given.indexer given.body given.source else given := by
  obtain ⟨given, hgiven, rfl⟩ := ofText?_eq_some_iff.mp h
  obtain ⟨json, hjson, hread⟩ := Option.bind_eq_some_iff.mp hgiven
  obtain ⟨document, hsize, hdocument, hcounted⟩ := exists_body_of_ofJson? hread
  have hbody : given.completed.body = given.body := by
    unfold completed
    split <;> rfl
  rw [Expr.ofDocument?] at hdocument
  split at hdocument
  case isFalse => cases hdocument
  case isTrue hreadable =>
  -- An integer is always kept, and a float because it was read and is therefore finite.
  have hkept : ∀ a ∈ given.completed.body.numbers, a.Kept := by
    intro a ha
    cases a with
    | int n => exact Scalar.kept_int n
    | float x =>
        refine Scalar.kept_float (Expr.isFinite_of_mem_numbers hdocument ?_) (hfloats x ha)
        rw [← hbody]
        exact ha
  have hrestored := Expr.restored_of_ofJson? (hbody ▸ hdocument) hkept
  have hback : Expr.ofDocument? (Json.nestingLimit - 1) given.completed.body.toJson =
      some given.completed.body := by
    rw [Expr.ofDocument?, if_pos (hrestored.readable hreadable)]
    exact hrestored.back true
  -- Counts that were not given are those of the body, which is no larger than the text is long.
  have husage : given.completed.usage.AllCounted := by
    unfold completed
    split
    · have hnames := Usage.total_addExpr Usage.empty given.body
      have hsmall := Expr.size_le_of_ofJson? hdocument
      have htext := Json.size_le_of_parse? hjson
      have hempty : Usage.empty.total = 0 := rfl
      refine Usage.allCounted_of_total_lt (lt_of_le_of_lt hnames ?_)
      omega
    · exact hcounted
  refine ⟨ofText?_eq_some_iff.mpr ⟨given.completed, ?_, (completed_completed given).symm⟩, given,
    hgiven, rfl⟩
  have hprintable := printable_toJson (Expr.printable_toJson hkept)
  rw [Definition.text, Json.parse?_compact hprintable, Option.bind_some]
  exact ofJson?_toJson husage hback

/-- A definition in arrays with an integer and a float. -/
theorem text_round_trip_halved :
    ∃ definition : Definition,
      ofText? "[\"x\",null,[\"dyadic\",\"add\",[\"variable\",\"y\"],[\"constant\",[1,0.5]]]]" =
        some definition ∧
      definition.body.numbers = [.int 1, .float (Float.ofBits 0x3fe0000000000000)] ∧
      ofText? definition.text = some definition ∧
      definition = ofBody "x" none definition.body "" := by
  generalize htext :
    "[\"x\",null,[\"dyadic\",\"add\",[\"variable\",\"y\"],[\"constant\",[1,0.5]]]]" = text
  have hnumbers : ((ofText? text).map fun definition => definition.body.numbers) =
      some [.int 1, .float (Float.ofBits 0x3fe0000000000000)] := by
    rw [← htext]
    decide +kernel
  have hparts : (((Json.parse? text).bind ofJson?).map fun given =>
      (given.written, given.indexer, given.source, given.usage.isEmpty)) =
        some ("x", none, "", true) := by
    rw [← htext]
    decide +kernel
  have hlength : text.length < UInt64.size := by
    rw [← htext]
    decide +kernel
  have hnumeral : Numeral.ofFloat? (Float.ofBits 0x3fe0000000000000) =
      some ⟨false, [0], [5], none⟩ := by
    decide +kernel
  have hread : Scalar.ofNumeral? ⟨false, [0], [5], none⟩ =
      some (.float (Float.ofBits 0x3fe0000000000000)) := by
    decide +kernel
  obtain ⟨definition, hdefinition, hbody⟩ := Option.map_eq_some_iff.mp hnumbers
  have hfloats : ∀ x, .float x ∈ definition.body.numbers → ∀ n, Numeral.ofFloat? x = some n →
      Scalar.ofNumeral? n = some (.float x) := by
    rw [hbody]
    intro x hx n hn
    rcases List.mem_cons.mp hx with hx | hx
    · cases hx
    · cases List.mem_singleton.mp hx
      rw [hnumeral] at hn
      cases hn
      exact hread
  obtain ⟨hback, given, hgiven, heq⟩ := text_round_trip hdefinition hlength hfloats
  refine ⟨definition, hdefinition, hbody, hback, ?_⟩
  rw [hgiven, Option.map_some, Option.some.injEq] at hparts
  simp only [Prod.mk.injEq] at hparts
  obtain ⟨hwritten, hindexer, hsource, hempty⟩ := hparts
  rw [hwritten, hindexer, hsource, if_pos hempty] at heq
  rw [heq]
  rfl

end Definition
end Memograph
