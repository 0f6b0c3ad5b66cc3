import Mathlib.Data.List.Forall2
import Memograph.Expr.Json
import Memograph.Proofs.Records
import Memograph.Proofs.Shortest

/-! Documents of numbers, values and expressions. What was read from a document is written as a
document that is read as the same again, is printable, and is nested no deeper than the one it came
from, as long as every float in it has a numeral that is read as that float. -/

namespace Memograph

/-! ### Numbers -/

namespace Scalar

/-- Whether a number is written as a numeral that is read as the same number. -/
def Kept (a : Scalar) : Prop :=
  ∃ n : Numeral, a.toJson = .number n ∧ n.WellFormed ∧ ofNumeral? n = some a

theorem inRange_of_ofNumeral? {n : Numeral} {a : Scalar} (h : ofNumeral? n = some a) :
    n.inRange = true := by
  rw [Numeral.inRange, Bool.or_eq_true, Bool.and_eq_true, decide_eq_true_eq]
  unfold ofNumeral? at h
  split at h
  · next hinteger => exact Or.inl hinteger
  · obtain ⟨x, hx, -⟩ := Option.map_eq_some_iff.mp h
    exact Or.inr (Option.isSome_of_eq_some hx)

/-- A float that a numeral is read as is finite. -/
theorem isFinite_of_ofNumeral? {n : Numeral} {x : Float} (h : ofNumeral? n = some (.float x)) :
    Floats.IsFinite x := by
  unfold ofNumeral? at h
  split at h
  · next hinteger =>
    have hfinite := Floats.isFinite_ofNat hinteger.2
    split at h
    · split at h
      · cases h
      · cases h
        exact Floats.isFinite_neg hfinite
    · split at h
      · cases h
      · cases h
        exact hfinite
  · obtain ⟨y, hy, heq⟩ := Option.map_eq_some_iff.mp h
    cases heq
    exact Floats.isFinite_of_toFloat? hy

theorem kept_int (n : Int64) : (int n).Kept := by
  refine ⟨.ofInt n.toInt, rfl, Numeral.wellFormed_ofInt n.toInt, ?_⟩
  have hlow := n.le_toInt
  have hhigh := n.toInt_lt
  have hinteger : (Numeral.ofInt n.toInt).isInteger ∧
      (Numeral.ofInt n.toInt).magnitude < UInt64.size := by
    refine ⟨rfl, ?_⟩
    rw [Numeral.magnitude_ofInt, UInt64.size]
    omega
  have hfits : fits n.toInt = true := decide_eq_true ⟨n.minValue_le_toInt, n.toInt_le⟩
  rw [ofNumeral?, if_pos hinteger, Numeral.magnitude_ofInt]
  by_cases hnegative : n.toInt < 0
  · have habs : -(n.toInt.natAbs : Int) = n.toInt := by omega
    have hpos : 0 < n.toInt.natAbs := by omega
    have hsign : (Numeral.ofInt n.toInt).negative = true := decide_eq_true hnegative
    rw [if_pos hsign, habs, if_pos ⟨hpos, hfits⟩, Int64.ofInt_toInt]
  · have habs : (n.toInt.natAbs : Int) = n.toInt := by omega
    have hsign : (Numeral.ofInt n.toInt).negative = false := decide_eq_false hnegative
    rw [if_neg (Bool.eq_false_iff.mp hsign), habs, if_pos hfits, Int64.ofInt_toInt]

/-- A finite float is kept if its numeral is read as the float. -/
theorem kept_float {x : Float} (hfinite : Floats.IsFinite x)
    (h : ∀ n, Numeral.ofFloat? x = some n → ofNumeral? n = some (.float x)) : (float x).Kept := by
  obtain ⟨n, hn, hwell⟩ := Numeral.exists_ofFloat? hfinite
  refine ⟨n, ?_, hwell, h n hn⟩
  rw [toJson, hn]

theorem Kept.ofJson?_toJson {a : Scalar} (h : a.Kept) :
    Value.ofJson? a.toJson = some (.scalar a) := by
  obtain ⟨n, hjson, -, hread⟩ := h
  rw [hjson, Value.ofJson?, hread]
  rfl

theorem Kept.printable {a : Scalar} (h : a.Kept) : a.toJson.Printable := by
  obtain ⟨n, hjson, hwell, -⟩ := h
  rw [hjson]
  exact hwell

theorem Kept.readable {a : Scalar} (h : a.Kept) (limit : Nat) : a.toJson.readable limit = true := by
  obtain ⟨n, hjson, -, hread⟩ := h
  rw [hjson]
  exact inRange_of_ofNumeral? hread

end Scalar

/-! ### Values -/

namespace Value

mutual

/-- The numbers in a value. -/
def numbers : Value → List Scalar
  | .scalar a => [a]
  | .array items => numbersOfItems items

/-- The numbers in items. -/
def numbersOfItems : List Value → List Scalar
  | [] => []
  | item :: items => numbers item ++ numbersOfItems items

end

mutual

theorem isFinite_of_mem_numbers : ∀ {json : Json} {value : Value} {x : Float},
    ofJson? json = some value → .float x ∈ value.numbers → Floats.IsFinite x
  | .number numeral, value, x, h, hx => by
      obtain ⟨a, ha, rfl⟩ := Option.map_eq_some_iff.mp h
      rw [numbers, List.mem_singleton] at hx
      exact Scalar.isFinite_of_ofNumeral? (hx ▸ ha)
  | .array items, value, x, h, hx => by
      obtain ⟨values, hvalues, rfl⟩ := Option.map_eq_some_iff.mp h
      exact isFinite_of_mem_numbersOfItems hvalues hx

theorem isFinite_of_mem_numbersOfItems : ∀ {items : List Json} {values : List Value} {x : Float},
    itemsOfJson? items = some values → .float x ∈ numbersOfItems values → Floats.IsFinite x
  | [], values, x, h, hx => by
      cases h
      cases hx
  | item :: items, values, x, h, hx => by
      obtain ⟨value, hvalue, h⟩ := Option.bind_eq_some_iff.mp h
      obtain ⟨rest, hrest, h⟩ := Option.bind_eq_some_iff.mp h
      cases h
      rcases List.mem_append.mp hx with hx | hx
      · exact isFinite_of_mem_numbers hvalue hx
      · exact isFinite_of_mem_numbersOfItems hrest hx

end

mutual

/-- A value whose numbers are kept is read from its document. -/
theorem ofJson?_toJson : ∀ {value : Value}, (∀ a ∈ value.numbers, a.Kept) →
    ofJson? value.toJson = some value
  | .scalar a, h => (h a (List.mem_singleton_self a)).ofJson?_toJson
  | .array items, h => by
      rw [toJson, ofJson?, itemsOfJson?_itemsToJson h]
      rfl

theorem itemsOfJson?_itemsToJson : ∀ {items : List Value},
    (∀ a ∈ numbersOfItems items, a.Kept) → itemsOfJson? (itemsToJson items) = some items
  | [], _ => rfl
  | item :: items, h => by
      obtain ⟨hitem, hitems⟩ := List.forall_mem_append.mp h
      rw [itemsToJson, itemsOfJson?, ofJson?_toJson hitem, itemsOfJson?_itemsToJson hitems]
      rfl

end

mutual

theorem printable_toJson : ∀ {value : Value}, (∀ a ∈ value.numbers, a.Kept) →
    value.toJson.Printable
  | .scalar a, h => (h a (List.mem_singleton_self a)).printable
  | .array _, h => printable_itemsToJson h

theorem printable_itemsToJson : ∀ {items : List Value},
    (∀ a ∈ numbersOfItems items, a.Kept) → Json.PrintableItems (itemsToJson items)
  | [], _ => trivial
  | item :: items, h => by
      obtain ⟨hitem, hitems⟩ := List.forall_mem_append.mp h
      exact ⟨printable_toJson hitem, printable_itemsToJson hitems⟩

end

mutual

/-- A value is written no deeper than it was read. -/
theorem readable_toJson : ∀ {limit : Nat} {json : Json} {value : Value},
    ofJson? json = some value → (∀ a ∈ value.numbers, a.Kept) → json.readable limit = true →
      value.toJson.readable limit = true
  | limit, .number _, value, h, hkept, _ => by
      obtain ⟨a, -, rfl⟩ := Option.map_eq_some_iff.mp h
      exact (hkept a (List.mem_singleton_self a)).readable limit
  | 0, .array _, _, _, _, hreadable => by cases hreadable
  | limit + 1, .array items, value, h, hkept, hreadable => by
      obtain ⟨values, hvalues, rfl⟩ := Option.map_eq_some_iff.mp h
      exact readable_itemsToJson hvalues hkept hreadable

theorem readable_itemsToJson : ∀ {limit : Nat} {items : List Json} {values : List Value},
    itemsOfJson? items = some values → (∀ a ∈ numbersOfItems values, a.Kept) →
      Json.readableItems limit items = true →
        Json.readableItems limit (itemsToJson values) = true
  | _, [], _, h, _, _ => by
      cases h
      rfl
  | limit, item :: items, values, h, hkept, hreadable => by
      obtain ⟨value, hvalue, h⟩ := Option.bind_eq_some_iff.mp h
      obtain ⟨rest, hrest, h⟩ := Option.bind_eq_some_iff.mp h
      cases h
      obtain ⟨hkeptItem, hkeptItems⟩ := List.forall_mem_append.mp hkept
      rw [Json.readableItems, Bool.and_eq_true] at hreadable
      rw [itemsToJson, Json.readableItems, readable_toJson hvalue hkeptItem hreadable.1,
        readable_itemsToJson hrest hkeptItems hreadable.2]
      rfl

end

end Value

/-! ### Kinds of expressions -/

namespace Expr

theorem Kind.ofJson?_word (outermost : Bool) (kind : Kind) :
    Kind.ofJson? outermost (.ofString kind.word) = some kind := by
  change (Kind.all.find? fun other => other.word == kind.word) = some kind
  cases kind <;> decide

theorem Kind.distinct_keys (kind : Kind) : ("kind" :: kind.fields).Nodup := by
  cases kind <;> decide

theorem ofJson?_unary_word (op : UnaryOp) : UnaryOp.ofJson? (.ofString op.word) = some op := by
  cases op
  decide

theorem ofJson?_binary_word (op : BinaryOp) : BinaryOp.ofJson? (.ofString op.word) = some op := by
  cases op <;> decide

/-- The object of a kind and its fields has their shape. -/
theorem shape?_record (outermost : Bool) {kind : Kind} {fields : List (String × Json)}
    (h : fields.map Prod.fst = kind.fields) :
    shape? outermost (record kind fields) = some (kind, fields.map Prod.snd) := by
  have hdistinct : ((("kind", Json.ofString kind.word) :: fields).map Prod.fst).Nodup := by
    rw [List.map_cons, h]
    exact kind.distinct_keys
  have hkind := Json.fieldOnce?_of_mem hdistinct List.mem_cons_self
  have hfields := Json.fieldsRequired?_of_subset hdistinct (List.subset_cons_self _ fields)
  rw [record, Json.ofEntries, shape?, Json.keyed?_ofEntries]
  simp only [Option.bind_eq_bind, Option.bind_some, Json.fieldRequired?, hkind, id,
    Kind.ofJson?_word, ← h, hfields]
  rfl

theorem shape?_object {outermost : Bool} {entries : List (Option String × Json)} {kind : Kind}
    {fields : List Json} (h : shape? outermost (.object entries) = some (kind, fields)) :
    ∃ known, Json.keyed? entries = some known ∧
      Json.fieldsRequired? known kind.fields = some fields := by
  obtain ⟨known, hknown, h⟩ := Option.bind_eq_some_iff.mp h
  obtain ⟨named, -, h⟩ := Option.bind_eq_some_iff.mp h
  obtain ⟨found, -, h⟩ := Option.bind_eq_some_iff.mp h
  obtain ⟨values, hvalues, h⟩ := Option.bind_eq_some_iff.mp h
  cases h
  exact ⟨known, hknown, hvalues⟩

/-- The fields of an expression are nested one less deep than the expression. -/
theorem readable_of_shape? {outermost : Bool} {json : Json} {kind : Kind} {fields : List Json}
    (h : shape? outermost json = some (kind, fields)) {limit : Nat}
    (hreadable : json.readable limit = true) :
    ∃ inner, limit = inner + 1 ∧ ∀ field ∈ fields, field.readable inner = true := by
  cases json with
  | null => cases h
  | bool b => cases h
  | number numeral => cases h
  | text content => cases h
  | array items =>
      cases items with
      | nil => cases h
      | cons first rest =>
          obtain ⟨found, -, heq⟩ := Option.map_eq_some_iff.mp h
          cases heq
          cases limit with
          | zero => cases hreadable
          | succ inner =>
              exact ⟨inner, rfl, (List.forall_mem_cons.mp (Json.readableItems_iff.mp hreadable)).2⟩
  | object entries =>
      obtain ⟨known, hknown, hfields⟩ := shape?_object h
      cases limit with
      | zero => cases hreadable
      | succ inner =>
          refine ⟨inner, rfl, fun field hfield => ?_⟩
          have hentries := Json.readableEntries_iff.mp hreadable
          rw [Json.keyed?_eq_some_iff.mp hknown] at hentries
          obtain ⟨hlength, hsubset⟩ := Json.zip_subset_of_fieldsRequired? hfields
          rw [← List.map_snd_zip hlength.le] at hfield
          obtain ⟨entry, hentry, rfl⟩ := List.mem_map.mp hfield
          exact (hentries _ (List.mem_map_of_mem (hsubset hentry))).2

/-- The fields of an expression are smaller together than the expression. -/
theorem sum_size_lt_of_shape? {outermost : Bool} {json : Json} {kind : Kind} {fields : List Json}
    (h : shape? outermost json = some (kind, fields)) :
    (fields.map Json.size).sum < json.size := by
  cases json with
  | null => cases h
  | bool b => cases h
  | number numeral => cases h
  | text content => cases h
  | array items =>
      cases items with
      | nil => cases h
      | cons first rest =>
          obtain ⟨found, -, heq⟩ := Option.map_eq_some_iff.mp h
          cases heq
          rw [Json.size, Json.sizeOfItems, Json.sizeOfItems_eq]
          omega
  | object entries =>
      obtain ⟨known, hknown, hfields⟩ := shape?_object h
      have hdistinct := (List.nodup_cons.mp kind.distinct_keys).2
      have hsum := Json.sum_size_le_of_fieldsRequired? hdistinct hfields
      rw [Json.size, Json.sizeOfEntries_eq, Json.keyed?_eq_some_iff.mp hknown, List.map_map]
      exact Nat.lt_one_add_iff.mpr hsum

/-! ### Expressions -/

/-- How an expression is read from the fields of a kind, given how the expressions inside are. -/
inductive Reads (Part : Json → Expr → Prop) : Kind → List Json → Expr → Prop where
  | constant {field : Json} {value : Value} (h : Value.ofJson? field = some value) :
      Reads Part .constant [field] (.constant value)
  | name (written : String) : Reads Part .name [.ofString written] (.name written)
  | vector {fields : List Json} {items : List Expr} (h : List.Forall₂ Part fields items) :
      Reads Part .vector [.array fields] (.vector items)
  | item {first second : Json} {target index : Expr} (htarget : Part first target)
      (hindex : Part second index) : Reads Part .item [first, second] (.item target index)
  | unary {field inner : Json} {op : UnaryOp} {operand : Expr}
      (hop : UnaryOp.ofJson? field = some op) (h : Part inner operand) :
      Reads Part .unary [field, inner] (.unary op operand)
  | binary {field first second : Json} {op : BinaryOp} {left right : Expr}
      (hop : BinaryOp.ofJson? field = some op) (hleft : Part first left)
      (hright : Part second right) :
      Reads Part .binary [field, first, second] (.binary op left right)
  | assign {inner : Json} (written : String) {value : Expr} (h : Part inner value) :
      Reads Part .assign [.ofString written, inner] (.assign written value)
  | sequence {fields : List Json} {statements : List Expr}
      (h : List.Forall₂ Part fields statements) :
      Reads Part .sequence [.array fields] (.sequence statements)

theorem Reads.imp {Part Part' : Json → Expr → Prop}
    (himp : ∀ json expr, Part json expr → Part' json expr) {kind : Kind} {fields : List Json}
    {expr : Expr} (h : Reads Part kind fields expr) : Reads Part' kind fields expr := by
  cases h with
  | constant h => exact .constant h
  | name written => exact .name written
  | vector h => exact .vector (h.imp himp)
  | item htarget hindex => exact .item (himp _ _ htarget) (himp _ _ hindex)
  | unary hop h => exact .unary hop (himp _ _ h)
  | binary hop hleft hright => exact .binary hop (himp _ _ hleft) (himp _ _ hright)
  | assign written h => exact .assign written (himp _ _ h)
  | sequence h => exact .sequence (h.imp himp)

theorem mapM_eq_some_iff {α β : Type} {f : α → Option β} {l : List α} {results : List β} :
    l.mapM f = some results ↔ List.Forall₂ (fun a b => f a = some b) l results := by
  induction l generalizing results with
  | nil =>
      rw [List.mapM_nil, List.forall₂_nil_left_iff, eq_comm]
      exact Option.some_inj
  | cons a l ih =>
      rw [List.mapM_cons, List.forall₂_cons_left_iff]
      constructor
      · intro h
        obtain ⟨b, hb, h⟩ := Option.bind_eq_some_iff.mp h
        obtain ⟨rest, hrest, h⟩ := Option.bind_eq_some_iff.mp h
        cases h
        exact ⟨b, rest, hb, ih.mp hrest, rfl⟩
      · rintro ⟨b, rest, hb, hrest, rfl⟩
        rw [hb, ih.mpr hrest]
        rfl

/-- An expression is read from the fields of its kind. -/
theorem ofJson?_succ_iff {outermost : Bool} {levels : Nat} {json : Json} {expr : Expr} :
    ofJson? outermost (levels + 1) json = some expr ↔
      ∃ kind fields, shape? outermost json = some (kind, fields) ∧
        Reads (fun json expr => ofJson? false levels json = some expr) kind fields expr := by
  rw [ofJson?]
  constructor
  · intro h
    split at h
    · next value hshape =>
      obtain ⟨v, hv, rfl⟩ := Option.map_eq_some_iff.mp h
      exact ⟨_, _, hshape, .constant hv⟩
    · next written hshape =>
      cases h
      exact ⟨_, _, hshape, .name written⟩
    · next items hshape =>
      obtain ⟨exprs, hexprs, rfl⟩ := Option.map_eq_some_iff.mp h
      exact ⟨_, _, hshape, .vector (mapM_eq_some_iff.mp hexprs)⟩
    · next hshape =>
      obtain ⟨target, htarget, h⟩ := Option.bind_eq_some_iff.mp h
      obtain ⟨index, hindex, h⟩ := Option.bind_eq_some_iff.mp h
      cases h
      exact ⟨_, _, hshape, .item htarget hindex⟩
    · next hshape =>
      obtain ⟨op, hop, h⟩ := Option.bind_eq_some_iff.mp h
      obtain ⟨operand, hoperand, h⟩ := Option.bind_eq_some_iff.mp h
      cases h
      exact ⟨_, _, hshape, .unary hop hoperand⟩
    · next hshape =>
      obtain ⟨op, hop, h⟩ := Option.bind_eq_some_iff.mp h
      obtain ⟨left, hleft, h⟩ := Option.bind_eq_some_iff.mp h
      obtain ⟨right, hright, h⟩ := Option.bind_eq_some_iff.mp h
      cases h
      exact ⟨_, _, hshape, .binary hop hleft hright⟩
    · next written value hshape =>
      obtain ⟨v, hv, rfl⟩ := Option.map_eq_some_iff.mp h
      exact ⟨_, _, hshape, .assign written hv⟩
    · next statements hshape =>
      obtain ⟨exprs, hexprs, rfl⟩ := Option.map_eq_some_iff.mp h
      exact ⟨_, _, hshape, .sequence (mapM_eq_some_iff.mp hexprs)⟩
    · cases h
  · rintro ⟨kind, fields, hshape, hreads⟩
    rw [hshape]
    cases hreads with
    | constant h => simp only [h, Option.map_some]
    | name written => rfl
    | vector h => simp only [mapM_eq_some_iff.mpr h, Option.map_some]
    | item htarget hindex =>
        simp only [htarget, hindex, Option.bind_eq_bind, Option.bind_some]
        rfl
    | unary hop h =>
        simp only [hop, h, Option.bind_eq_bind, Option.bind_some]
        rfl
    | binary hop hleft hright =>
        simp only [hop, hleft, hright, Option.bind_eq_bind, Option.bind_some]
        rfl
    | assign written h => simp only [Json.ofString, h, Option.map_some]
    | sequence h => simp only [mapM_eq_some_iff.mpr h, Option.map_some]

/-- What holds of an expression if it holds of the expressions inside holds of all that are read. -/
theorem ofJson?_induction {P : Nat → Json → Expr → Prop}
    (h : ∀ {levels : Nat} {outermost : Bool} {json : Json} {kind : Kind} {fields : List Json}
      {expr : Expr}, shape? outermost json = some (kind, fields) →
        Reads (P levels) kind fields expr → P (levels + 1) json expr)
    {levels : Nat} {outermost : Bool} {json : Json} {expr : Expr}
    (hread : ofJson? outermost levels json = some expr) : P levels json expr := by
  induction levels generalizing outermost json expr with
  | zero => cases hread
  | succ levels ih =>
      obtain ⟨kind, fields, hshape, hreads⟩ := ofJson?_succ_iff.mp hread
      exact h hshape (hreads.imp fun _ _ hpart => ih hpart)

mutual

/-- The numbers in the constants of an expression. -/
def numbers : Expr → List Scalar
  | .constant value => value.numbers
  | .name _ => []
  | .vector items => numbersOfAll items
  | .item target index => numbers target ++ numbers index
  | .unary _ operand => numbers operand
  | .binary _ left right => numbers left ++ numbers right
  | .assign _ value => numbers value
  | .sequence statements => numbersOfAll statements

/-- The numbers in the constants of expressions. -/
def numbersOfAll : List Expr → List Scalar
  | [] => []
  | expr :: exprs => numbers expr ++ numbersOfAll exprs

end

mutual

/-- How many expressions there are in an expression, itself included. -/
def size : Expr → Nat
  | .constant _ => 1
  | .name _ => 1
  | .vector items => 1 + sizeOfAll items
  | .item target index => 1 + size target + size index
  | .unary _ operand => 1 + size operand
  | .binary _ left right => 1 + size left + size right
  | .assign _ value => 1 + size value
  | .sequence statements => 1 + sizeOfAll statements

/-- The size of all expressions. -/
def sizeOfAll : List Expr → Nat
  | [] => 0
  | expr :: exprs => size expr + sizeOfAll exprs

end

/-- The floats of an expression that was read are finite. -/
theorem isFinite_of_mem_numbers {levels : Nat} {outermost : Bool} {json : Json} {expr : Expr}
    (hread : ofJson? outermost levels json = some expr) :
    ∀ {x : Float}, .float x ∈ expr.numbers → Floats.IsFinite x := by
  refine ofJson?_induction (P := fun _ _ expr => ∀ {x : Float}, .float x ∈ expr.numbers →
    Floats.IsFinite x) ?_ hread
  intro levels outermost json kind fields expr _ hreads x hx
  have hall {fields : List Json} {exprs : List Expr}
      (h : List.Forall₂ (fun _ expr => ∀ {x : Float}, Scalar.float x ∈ expr.numbers →
        Floats.IsFinite x) fields exprs) (hx : .float x ∈ numbersOfAll exprs) :
      Floats.IsFinite x := by
    induction h with
    | nil => cases hx
    | cons hfirst _ ih =>
        rcases List.mem_append.mp hx with hx | hx
        · exact hfirst hx
        · exact ih hx
  cases hreads with
  | constant h => exact Value.isFinite_of_mem_numbers h hx
  | name written => cases hx
  | vector h => exact hall h hx
  | item htarget hindex =>
      rcases List.mem_append.mp hx with hx | hx
      · exact htarget hx
      · exact hindex hx
  | unary hop h => exact h hx
  | binary hop hleft hright =>
      rcases List.mem_append.mp hx with hx | hx
      · exact hleft hx
      · exact hright hx
  | assign written h => exact h hx
  | sequence h => exact hall h hx

/-- If the expressions inside are no larger than their documents, then the whole has one more at
most than the fields have together. -/
theorem Reads.size_le {kind : Kind} {fields : List Json} {expr : Expr}
    (h : Reads (fun json expr => expr.size ≤ json.size) kind fields expr) :
    expr.size ≤ 1 + (fields.map Json.size).sum := by
  have hall {fields : List Json} {exprs : List Expr}
      (h : List.Forall₂ (fun json expr => size expr ≤ json.size) fields exprs) :
      sizeOfAll exprs ≤ Json.sizeOfItems fields := by
    induction h with
    | nil => exact Nat.le_refl _
    | cons hfirst _ ih => exact Nat.add_le_add hfirst ih
  cases h with
  | constant h =>
      rw [size]
      omega
  | name written =>
      rw [size]
      omega
  | vector h =>
      have := hall h
      simp only [size, List.map_cons, List.map_nil, List.sum_cons, List.sum_nil, Json.size]
      omega
  | item htarget hindex =>
      simp only [size, List.map_cons, List.map_nil, List.sum_cons, List.sum_nil]
      omega
  | unary hop h =>
      simp only [size, List.map_cons, List.map_nil, List.sum_cons, List.sum_nil]
      omega
  | binary hop hleft hright =>
      simp only [size, List.map_cons, List.map_nil, List.sum_cons, List.sum_nil]
      omega
  | assign written h =>
      simp only [size, List.map_cons, List.map_nil, List.sum_cons, List.sum_nil]
      omega
  | sequence h =>
      have := hall h
      simp only [size, List.map_cons, List.map_nil, List.sum_cons, List.sum_nil, Json.size]
      omega

/-- An expression is no larger than the document it was read from. -/
theorem size_le_of_ofJson? {levels : Nat} {outermost : Bool} {json : Json} {expr : Expr}
    (hread : ofJson? outermost levels json = some expr) : expr.size ≤ json.size := by
  refine ofJson?_induction (P := fun _ json expr => expr.size ≤ json.size) ?_ hread
  intro levels outermost json kind fields expr hshape hreads
  have hfields := sum_size_lt_of_shape? hshape
  have hexpr := hreads.size_le
  omega

/-! ### Expressions from their documents -/

theorem printable_record {kind : Kind} {fields : List (String × Json)}
    (h : ∀ field ∈ fields, field.2.Printable) : (record kind fields).Printable :=
  Json.printable_ofEntries (List.forall_mem_cons.mpr ⟨rfl, h⟩)

theorem readable_record {kind : Kind} {fields : List (String × Json)} {limit : Nat}
    (h : ∀ field ∈ fields, field.2.readable limit = true) :
    (record kind fields).readable (limit + 1) = true :=
  Json.readable_ofEntries (List.forall_mem_cons.mpr ⟨rfl, h⟩)

mutual

/-- An expression whose numbers are kept has a printable document. -/
theorem printable_toJson : ∀ {expr : Expr}, (∀ a ∈ expr.numbers, a.Kept) → expr.toJson.Printable
  | .constant value, h => by
      rw [toJson]
      exact printable_record (List.forall_mem_singleton.mpr (Value.printable_toJson h))
  | .name written, _ => by
      rw [toJson]
      exact printable_record (List.forall_mem_singleton.mpr rfl)
  | .vector items, h => by
      rw [toJson]
      exact printable_record (List.forall_mem_singleton.mpr (printable_listToJson h))
  | .item target index, h => by
      obtain ⟨htarget, hindex⟩ := List.forall_mem_append.mp h
      rw [toJson]
      refine printable_record (List.forall_mem_cons.mpr ⟨printable_toJson htarget, ?_⟩)
      exact List.forall_mem_singleton.mpr (printable_toJson hindex)
  | .unary op operand, h => by
      rw [toJson]
      refine printable_record (List.forall_mem_cons.mpr ⟨rfl, ?_⟩)
      exact List.forall_mem_singleton.mpr (printable_toJson h)
  | .binary op left right, h => by
      obtain ⟨hleft, hright⟩ := List.forall_mem_append.mp h
      rw [toJson]
      refine printable_record (List.forall_mem_cons.mpr ⟨rfl, ?_⟩)
      refine List.forall_mem_cons.mpr ⟨printable_toJson hleft, ?_⟩
      exact List.forall_mem_singleton.mpr (printable_toJson hright)
  | .assign written value, h => by
      rw [toJson]
      refine printable_record (List.forall_mem_cons.mpr ⟨rfl, ?_⟩)
      exact List.forall_mem_singleton.mpr (printable_toJson h)
  | .sequence statements, h => by
      rw [toJson]
      exact printable_record (List.forall_mem_singleton.mpr (printable_listToJson h))

theorem printable_listToJson : ∀ {exprs : List Expr}, (∀ a ∈ numbersOfAll exprs, a.Kept) →
    Json.PrintableItems (listToJson exprs)
  | [], _ => trivial
  | expr :: exprs, h => by
      obtain ⟨hfirst, hrest⟩ := List.forall_mem_append.mp h
      exact ⟨printable_toJson hfirst, printable_listToJson hrest⟩

end

/-- Whether the document of an expression is read as that expression again, and is nested no deeper
than a given document. -/
structure Restored (levels : Nat) (json : Json) (expr : Expr) : Prop where
  back : ∀ outermost, ofJson? outermost levels expr.toJson = some expr
  readable : ∀ {limit}, json.readable limit = true → expr.toJson.readable limit = true

/-- An expression is restored if it is written as a record whose fields are read as its parts and
are nested no deeper than the fields it was read from. -/
theorem Restored.of_record {levels : Nat} {outermost : Bool} {json : Json} {kind : Kind}
    {fields : List Json} {expr : Expr} {entries : List (String × Json)}
    (hshape : shape? outermost json = some (kind, fields))
    (hjson : expr.toJson = record kind entries)
    (hkeys : entries.map Prod.fst = kind.fields)
    (hreads : Reads (fun json expr => ofJson? false levels json = some expr) kind
      (entries.map Prod.snd) expr)
    (hreadable : ∀ {limit}, (∀ field ∈ fields, field.readable limit = true) →
      ∀ entry ∈ entries, entry.2.readable limit = true) : Restored (levels + 1) json expr where
  back := by
    intro outermost
    rw [hjson]
    exact ofJson?_succ_iff.mpr ⟨kind, _, shape?_record outermost hkeys, hreads⟩
  readable := by
    intro limit h
    obtain ⟨inner, rfl, hfields⟩ := readable_of_shape? hshape h
    rw [hjson]
    exact readable_record (hreadable hfields)

theorem restored_listToJson {levels : Nat} {fields : List Json} {exprs : List Expr}
    (h : List.Forall₂ (fun json expr => (∀ a ∈ numbers expr, a.Kept) → Restored levels json expr)
      fields exprs) (hkept : ∀ a ∈ numbersOfAll exprs, a.Kept) :
    List.Forall₂ (fun json expr => ofJson? false levels json = some expr) (listToJson exprs)
        exprs ∧
      ∀ {limit}, (Json.array fields).readable limit = true →
        (Json.array (listToJson exprs)).readable limit = true := by
  induction h with
  | nil => exact ⟨.nil, id⟩
  | cons hfirst _ ih =>
      obtain ⟨hkeptFirst, hkeptRest⟩ := List.forall_mem_append.mp hkept
      obtain ⟨hback, hreadable⟩ := ih hkeptRest
      have hrestored := hfirst hkeptFirst
      refine ⟨.cons (hrestored.back false) hback, fun {limit} h => ?_⟩
      cases limit with
      | zero => cases h
      | succ limit =>
          obtain ⟨hitem, hitems⟩ := List.forall_mem_cons.mp (Json.readableItems_iff.mp h)
          have hrest := @hreadable (limit + 1) (Json.readableItems_iff.mpr hitems)
          exact Json.readableItems_iff.mpr
            (List.forall_mem_cons.mpr ⟨hrestored.readable hitem, Json.readableItems_iff.mp hrest⟩)

/-- An expression that was read and whose numbers are kept is restored from its document. -/
theorem restored_of_ofJson? {levels : Nat} {outermost : Bool} {json : Json} {expr : Expr}
    (hread : ofJson? outermost levels json = some expr) :
    (∀ a ∈ expr.numbers, a.Kept) → Restored levels json expr := by
  refine ofJson?_induction (P := fun levels json expr => (∀ a ∈ expr.numbers, a.Kept) →
    Restored levels json expr) ?_ hread
  intro levels outermost json kind fields expr hshape hreads hkept
  -- Each kind is written as the record of its fields, whatever form it was read from.
  cases hreads with
  | constant h =>
      refine .of_record hshape (by rw [toJson]) rfl (.constant (Value.ofJson?_toJson hkept)) ?_
      intro limit hfields
      exact List.forall_mem_singleton.mpr
        (Value.readable_toJson h hkept (hfields _ List.mem_cons_self))
  | name written =>
      refine .of_record hshape (by rw [toJson]) rfl (.name written) fun _ => ?_
      exact List.forall_mem_singleton.mpr rfl
  | vector h =>
      obtain ⟨hback, hreadable⟩ := restored_listToJson h hkept
      refine .of_record hshape (by rw [toJson]) rfl ?_ fun hfields => ?_
      · exact .vector hback
      · exact List.forall_mem_singleton.mpr (hreadable (hfields _ List.mem_cons_self))
  | item htarget hindex =>
      obtain ⟨hkeptTarget, hkeptIndex⟩ := List.forall_mem_append.mp hkept
      have hfirst := htarget hkeptTarget
      have hsecond := hindex hkeptIndex
      refine .of_record hshape (by rw [toJson]) rfl
        (.item (hfirst.back false) (hsecond.back false)) fun hfields => ?_
      obtain ⟨hreadFirst, hrest⟩ := List.forall_mem_cons.mp hfields
      refine List.forall_mem_cons.mpr ⟨hfirst.readable hreadFirst, ?_⟩
      exact List.forall_mem_singleton.mpr (hsecond.readable (hrest _ List.mem_cons_self))
  | unary hop h =>
      have hinner := h hkept
      refine .of_record hshape (by rw [toJson]) rfl
        (.unary (ofJson?_unary_word _) (hinner.back false)) fun hfields => ?_
      obtain ⟨-, hrest⟩ := List.forall_mem_cons.mp hfields
      refine List.forall_mem_cons.mpr ⟨rfl, ?_⟩
      exact List.forall_mem_singleton.mpr (hinner.readable (hrest _ List.mem_cons_self))
  | binary hop hleft hright =>
      obtain ⟨hkeptLeft, hkeptRight⟩ := List.forall_mem_append.mp hkept
      have hfirst := hleft hkeptLeft
      have hsecond := hright hkeptRight
      refine .of_record hshape (by rw [toJson]) rfl
        (.binary (ofJson?_binary_word _) (hfirst.back false) (hsecond.back false)) fun hfields => ?_
      obtain ⟨-, hrest⟩ := List.forall_mem_cons.mp hfields
      obtain ⟨hreadFirst, hlast⟩ := List.forall_mem_cons.mp hrest
      refine List.forall_mem_cons.mpr ⟨rfl, ?_⟩
      refine List.forall_mem_cons.mpr ⟨hfirst.readable hreadFirst, ?_⟩
      exact List.forall_mem_singleton.mpr (hsecond.readable (hlast _ List.mem_cons_self))
  | assign written h =>
      have hinner := h hkept
      refine .of_record hshape (by rw [toJson]) rfl (.assign written (hinner.back false))
        fun hfields => ?_
      obtain ⟨-, hrest⟩ := List.forall_mem_cons.mp hfields
      refine List.forall_mem_cons.mpr ⟨rfl, ?_⟩
      exact List.forall_mem_singleton.mpr (hinner.readable (hrest _ List.mem_cons_self))
  | sequence h =>
      obtain ⟨hback, hreadable⟩ := restored_listToJson h hkept
      refine .of_record hshape (by rw [toJson]) rfl ?_ fun hfields => ?_
      · exact .sequence hback
      · exact List.forall_mem_singleton.mpr (hreadable (hfields _ List.mem_cons_self))

end Expr
end Memograph
