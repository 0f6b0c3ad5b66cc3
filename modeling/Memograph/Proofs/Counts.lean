import Memograph.Proofs.Scoping
import Memograph.Proofs.Definitions

/-! Counts of a usage. Compiling asks of a usage which names it lists and in which order, and never
how often, so definitions that differ in counts alone compile alike. Counts are added up in two
places. The walk over a body adds one at a time and stays below the size of the body. Promoting the
defined name adds what the usage says of it as a local to what it says of it as a variable; the
usage may have been given with the definition, and then the two fit sixty-four bits but their sum
need not. -/

namespace Memograph

/-! ### The walk, name by name -/

/-- A name where an expression uses it. -/
inductive Use where
  | read (written : String)
  | target (written : String)

namespace Expr

mutual

/-- The uses of names in an expression, in the order of the walk that counts them. -/
def uses : Expr → List Use
  | .constant _ => []
  | .name written => [.read written]
  | .vector items => usesOfAll items
  | .item target index => uses target ++ uses index
  | .unary _ operand => uses operand
  | .binary _ left right => uses left ++ uses right
  | .assign written value => uses value ++ [.target written]
  | .sequence statements => usesOfAll statements

/-- The uses of names in expressions one after the other. -/
def usesOfAll : List Expr → List Use
  | [] => []
  | expr :: exprs => uses expr ++ usesOfAll exprs

end

end Expr

namespace Usage

/-- Counts one use. -/
def addUse (usage : Usage) : Use → Usage
  | .read written => usage.addAccess written
  | .target written => usage.addAssignment written

/-- The count that a use goes into. -/
def countOf (usage : Usage) : Use → Nat
  | .read written => (usage.accessing.get? written).getD 0
  | .target written =>
    ((if isDotted written then usage.globalAssignment else usage.localAssignment).get?
      written).getD 0

/-- The sums that counting one use after the other writes. -/
def sums (usage : Usage) : List Use → List Nat
  | [] => []
  | use :: uses => (usage.addUse use).countOf use :: (usage.addUse use).sums uses

mutual

/-- The walk over an expression counts its uses one after the other. -/
theorem addExpr_eq_foldl : ∀ (usage : Usage) (expr : Expr),
    usage.addExpr expr = expr.uses.foldl addUse usage
  | usage, .constant _ => by rw [addExpr, Expr.uses, List.foldl_nil]
  | usage, .name written => by rw [addExpr, Expr.uses, List.foldl_cons, List.foldl_nil, addUse]
  | usage, .vector items => by rw [addExpr, Expr.uses, addExprs_eq_foldl usage items]
  | usage, .item target index => by
      rw [addExpr, Expr.uses, List.foldl_append, ← addExpr_eq_foldl usage target,
        ← addExpr_eq_foldl _ index]
  | usage, .unary _ operand => by rw [addExpr, Expr.uses, addExpr_eq_foldl usage operand]
  | usage, .binary _ left right => by
      rw [addExpr, Expr.uses, List.foldl_append, ← addExpr_eq_foldl usage left,
        ← addExpr_eq_foldl _ right]
  | usage, .assign written value => by
      rw [addExpr, Expr.uses, List.foldl_append, ← addExpr_eq_foldl usage value, List.foldl_cons,
        List.foldl_nil, addUse]
  | usage, .sequence statements => by rw [addExpr, Expr.uses, addExprs_eq_foldl usage statements]

theorem addExprs_eq_foldl : ∀ (usage : Usage) (exprs : List Expr),
    usage.addExprs exprs = (Expr.usesOfAll exprs).foldl addUse usage
  | usage, [] => by rw [addExprs, Expr.usesOfAll, List.foldl_nil]
  | usage, expr :: exprs => by
      rw [addExprs, Expr.usesOfAll, List.foldl_append, ← addExpr_eq_foldl usage expr,
        ← addExprs_eq_foldl _ exprs]

end

theorem total_addUse (usage : Usage) (use : Use) : (usage.addUse use).total = usage.total + 1 := by
  cases use with
  | read written => exact total_addAccess usage written
  | target written => exact total_addAssignment usage written

theorem total_foldl_addUse (usage : Usage) (uses : List Use) :
    (uses.foldl addUse usage).total = usage.total + uses.length := by
  induction uses generalizing usage with
  | nil => rfl
  | cons use uses ih =>
      rw [List.foldl_cons, ih, total_addUse, List.length_cons]
      omega

theorem length_uses_le (expr : Expr) : expr.uses.length ≤ expr.size := by
  have hcounted := total_addExpr empty expr
  rw [addExpr_eq_foldl, total_foldl_addUse] at hcounted
  omega

theorem getD_get?_le_sum (table : Table String Nat) (written : String) :
    (table.get? written).getD 0 ≤ table.values.sum := by
  cases hcount : table.get? written with
  | none => exact Nat.zero_le _
  | some count =>
      exact List.single_le_sum (fun _ _ => Nat.zero_le _) _ (Table.mem_values_of_get? hcount)

theorem countOf_le_total (usage : Usage) (use : Use) : usage.countOf use ≤ usage.total := by
  have hread := getD_get?_le_sum usage.accessing
  have hlocal := getD_get?_le_sum usage.localAssignment
  have hglobal := getD_get?_le_sum usage.globalAssignment
  unfold total
  cases use with
  | read written =>
      have := hread written
      rw [countOf]
      omega
  | target written =>
      have := hlocal written
      have := hglobal written
      rw [countOf]
      split <;> omega

/-- Each sum counts uses that have been met. -/
theorem le_of_mem_sums {usage : Usage} {uses : List Use} {sum : Nat} (h : sum ∈ usage.sums uses) :
    sum ≤ usage.total + uses.length := by
  induction uses generalizing usage with
  | nil => cases h
  | cons use uses ih =>
      have htotal := total_addUse usage use
      rw [List.length_cons]
      rcases List.mem_cons.mp h with rfl | hlater
      · have := countOf_le_total (usage.addUse use) use
        omega
      · have := ih hlater
        omega

/-! ### Promotion -/

/-- What promotion writes for a name that was assigned as a local. -/
theorem get?_promote_globalAssignment {usage : Usage} {written : String} {count : Nat}
    (h : usage.localAssignment.get? written = some count) :
    (usage.promote written).globalAssignment.get? written =
      some ((usage.globalAssignment.get? written).getD 0 + count) := by
  simp only [promote, h, countUp, Table.alter, Table.get?_insert, if_true]

/-! ### Usages without their counts -/

/-- The usage with every count zero. -/
def blank (usage : Usage) : Usage where
  accessing := usage.accessing.mapValues fun _ => 0
  localAssignment := usage.localAssignment.mapValues fun _ => 0
  globalAssignment := usage.globalAssignment.mapValues fun _ => 0

theorem keys_localAssignment_of_isEmpty {usage : Usage} (h : usage.isEmpty = true) :
    usage.localAssignment.keys = [] := by
  simp only [isEmpty, Bool.and_eq_true, beq_iff_eq] at h
  rw [← List.length_eq_zero_iff, Table.length_keys, h.1.2]

theorem canIndex_blank (usage : Usage) : usage.blank.canIndex = usage.canIndex := by
  funext written indexer
  simp only [canIndex, blank, Table.contains, Table.get?_mapValues, Option.isSome_map]

theorem keys_bound_blank (usage : Usage) (indexer : Option String) (written : String) :
    ((usage.blank.withoutIndexer indexer).promote written).accessing.keys =
        ((usage.withoutIndexer indexer).promote written).accessing.keys ∧
      ((usage.blank.withoutIndexer indexer).promote written).localAssignment.keys =
        ((usage.withoutIndexer indexer).promote written).localAssignment.keys ∧
      ((usage.blank.withoutIndexer indexer).promote written).globalAssignment.keys =
        ((usage.withoutIndexer indexer).promote written).globalAssignment.keys := by
  refine ⟨?_, ?_, ?_⟩
  · simp only [promote_accessing, keys_withoutIndexer_accessing, blank, Table.keys_mapValues]
  · simp only [keys_promote_localAssignment, withoutIndexer_localAssignment, blank,
      Table.keys_mapValues]
  · cases indexer <;>
      simp only [keys_promote_globalAssignment, withoutIndexer, blank, Table.keys_mapValues]

end Usage

/-! ### Definitions -/

namespace Definition

/-- The definition with every count of its usage zero. -/
def blank (definition : Definition) : Definition :=
  { definition with usage := definition.usage.blank }

/-- Counts are not looked at where a definition is compiled. -/
theorem compile_blank (definition : Definition) (context : ContextPath) :
    definition.blank.compile context = definition.compile context := by
  obtain ⟨hreads, hlocals, hglobals⟩ :=
    definition.usage.keys_bound_blank definition.indexer definition.written
  simp only [compile, blank, Usage.canIndex_blank, Usage.globalCandidates, hreads, hlocals,
    hglobals]

/-- Whether the defined name is well formed and the indexer can be bound, which is seen to before
the defined name is promoted. -/
def admitted (definition : Definition) : Bool :=
  isValidName definition.written &&
    definition.indexer.all (definition.usage.canIndex definition.written)

/-- The sums that completing a definition writes. -/
def completionSums (given : Definition) : List Nat :=
  if given.usage.isEmpty then Usage.empty.sums given.body.uses else []

/-- The sums that compiling a definition writes: that of its own name, where this is promoted. -/
def promotionSums (definition : Definition) : List Nat :=
  if definition.admitted && definition.usage.localAssignment.contains definition.written then
    (definition.boundUsage.globalAssignment.get? definition.written).toList
  else []

/-- Whether a usage counts the defined name so often, as a local and as a variable, that the two
counts together do not fit sixty-four bits. -/
structure Overfull (definition : Definition) : Prop where
  admitted : definition.admitted = true
  exceeds : ∃ locals globals,
    definition.usage.localAssignment.get? definition.written = some locals ∧
      definition.usage.globalAssignment.get? definition.written = some globals ∧
      UInt64.size ≤ globals + locals

theorem mem_promotionSums_iff {definition : Definition} {sum : Nat} :
    sum ∈ definition.promotionSums ↔ definition.admitted = true ∧
      ∃ locals, definition.usage.localAssignment.get? definition.written = some locals ∧
        sum = (definition.usage.globalAssignment.get? definition.written).getD 0 + locals := by
  unfold promotionSums
  cases hlocals : definition.usage.localAssignment.get? definition.written with
  | none => simp [Table.contains, hlocals]
  | some locals =>
      have hkept : (definition.usage.withoutIndexer definition.indexer).localAssignment.get?
          definition.written = some locals := by
        rw [Usage.withoutIndexer_localAssignment, hlocals]
      have hbound : definition.boundUsage.globalAssignment.get? definition.written =
          some ((definition.usage.globalAssignment.get? definition.written).getD 0 + locals) := by
        rw [boundUsage, Usage.get?_promote_globalAssignment hkept,
          Usage.withoutIndexer_globalAssignment]
      cases hadmitted : definition.admitted <;> simp [Table.contains, hlocals, hbound]

/-- The body of a definition is no larger than its text is long, and the counts that came with it
fit sixty-four bits. -/
theorem size_body_le_length {text : String} {given : Definition}
    (h : (Json.parse? text).bind ofJson? = some given) :
    given.body.size ≤ text.length ∧ given.usage.AllCounted := by
  obtain ⟨json, hjson, hread⟩ := Option.bind_eq_some_iff.mp h
  obtain ⟨document, hsize, hdocument, hcounted⟩ := exists_body_of_ofJson? hread
  have htext := Json.size_le_of_parse? hjson
  rw [Expr.ofDocument?] at hdocument
  split at hdocument
  · have hbody := Expr.size_le_of_ofJson? hdocument
    exact ⟨by omega, hcounted⟩
  · cases hdocument

/-- Completing a definition counts the uses in its body, each once. -/
theorem le_size_of_mem_completionSums {given : Definition} {sum : Nat}
    (h : sum ∈ given.completionSums) : sum ≤ given.body.size := by
  unfold completionSums at h
  split at h
  · have hsum := Usage.le_of_mem_sums h
    have hlength := Usage.length_uses_le given.body
    have hzero : Usage.empty.total = 0 := rfl
    omega
  · cases h

/-- The counts of a body are still no more than its size where two of them are added. -/
theorem le_size_of_mem_promotionSums {definition : Definition}
    (husage : definition.usage = Usage.ofExpr definition.body) {sum : Nat}
    (h : sum ∈ definition.promotionSums) : sum ≤ definition.body.size := by
  obtain ⟨-, locals, hlocals, rfl⟩ := mem_promotionSums_iff.mp h
  have hlocal := Usage.getD_get?_le_sum definition.usage.localAssignment definition.written
  have hglobal := Usage.getD_get?_le_sum definition.usage.globalAssignment definition.written
  rw [hlocals, Option.getD_some] at hlocal
  have hzero : Usage.empty.total = 0 := rfl
  have htotal := Usage.total_addExpr Usage.empty definition.body
  rw [hzero, Nat.zero_add, ← Usage.ofExpr, ← husage, Usage.total] at htotal
  omega

/-- A sum outgrows sixty-four bits exactly if the definition came with two counts that are too large
together. -/
theorem exists_large_promotion_iff {given : Definition} (hbody : given.body.size < UInt64.size)
    (hcounted : given.usage.AllCounted) :
    (∃ sum ∈ given.completed.promotionSums, UInt64.size ≤ sum) ↔ given.Overfull := by
  by_cases hempty : given.usage.isEmpty = true
  · have hcompleted : given.completed = { given with usage := Usage.ofExpr given.body } := by
      rw [completed, if_pos hempty]
    rw [hcompleted]
    constructor
    · rintro ⟨sum, hsum, hlarge⟩
      have := (le_size_of_mem_promotionSums rfl hsum).trans_lt hbody
      omega
    · rintro ⟨-, locals, globals, hlocals, -, -⟩
      have hmem := Table.mem_keys_of_get? hlocals
      rw [Usage.keys_localAssignment_of_isEmpty hempty] at hmem
      cases hmem
  · have hcompleted : given.completed = given := by rw [completed, if_neg hempty]
    rw [hcompleted]
    constructor
    · rintro ⟨sum, hsum, hlarge⟩
      obtain ⟨hadmitted, locals, hlocals, rfl⟩ := mem_promotionSums_iff.mp hsum
      -- One count alone fits, so that there are two.
      have hfits := hcounted.localAssignment _ ((Table.get?_eq_some_iff _ _ _).mp hlocals)
      cases hglobals : given.usage.globalAssignment.get? given.written with
      | none =>
          rw [hglobals, Option.getD_none] at hlarge
          dsimp only at hfits
          omega
      | some globals =>
          rw [hglobals, Option.getD_some] at hlarge
          exact ⟨hadmitted, locals, globals, hlocals, hglobals, hlarge⟩
    · rintro ⟨hadmitted, locals, globals, hlocals, hglobals, hlarge⟩
      refine ⟨globals + locals, mem_promotionSums_iff.mpr ⟨hadmitted, locals, hlocals, ?_⟩, hlarge⟩
      rw [hglobals, Option.getD_some]

/-- What counts do to a definition that a text gives. No sum outgrows sixty-four bits where the
definition is completed, and one does where it is compiled exactly if the text itself gives the
defined name two counts that are too large together. Definitions that differ in counts alone compile
alike in every context. -/
theorem compile_despite_counts {text : String} {definition : Definition}
    (h : ofText? text = some definition) (hlength : text.length < UInt64.size) :
    (∃ given, (Json.parse? text).bind ofJson? = some given ∧ definition = given.completed ∧
      (∀ sum ∈ given.completionSums, sum < UInt64.size) ∧
      ((∃ sum ∈ definition.promotionSums, UInt64.size ≤ sum) ↔ given.Overfull)) ∧
    ∀ other : Definition, other.blank = definition.blank → ∀ context,
      other.compile context = definition.compile context := by
  constructor
  · obtain ⟨given, hgiven, rfl⟩ := ofText?_eq_some_iff.mp h
    obtain ⟨hbody, hcounted⟩ := size_body_le_length hgiven
    have hsmall := hbody.trans_lt hlength
    exact ⟨given, hgiven, rfl,
      fun sum hsum => (le_size_of_mem_completionSums hsum).trans_lt hsmall,
      exists_large_promotion_iff hsmall hcounted⟩
  · intro other hblank context
    rw [← compile_blank other, hblank, compile_blank]

/-- A text whose counts of the defined name each fit and together do not. -/
def brimming : String :=
  "[\"x\",null,[\"assign\",\"x\",[\"constant\",1]],\"\"," ++
    "[\x7b\x7d,\x7b\"x\":18446744073709551615\x7d,\x7b\"x\":1\x7d]]"

/-- It compiles all the same, to what it would with one assignment of either kind. -/
theorem compile_despite_counts_brimming :
    ∃ given, (Json.parse? brimming).bind ofJson? = some given ∧
      (∃ sum ∈ given.completed.promotionSums, UInt64.size ≤ sum) ∧
      (∃ compiled, given.completed.compile .root = .ok compiled) ∧
      ∀ context, { given with usage := ⟨∅, .ofList [("x", 1)], .ofList [("x", 1)]⟩ }.compile
        context = given.completed.compile context := by
  generalize htext : brimming = text
  have hparts : (((Json.parse? text).bind ofJson?).map fun given =>
      (given.admitted, (given.completed.compile .root).isOk, given.written, given.usage)) =
        some (true, true, "x",
          ⟨∅, .ofList [("x", UInt64.size - 1)], .ofList [("x", 1)]⟩) := by
    rw [← htext]
    decide +kernel
  have hlength : text.length < UInt64.size := by
    rw [← htext]
    decide +kernel
  obtain ⟨given, hgiven, hgivenParts⟩ := Option.map_eq_some_iff.mp hparts
  simp only [Prod.mk.injEq] at hgivenParts
  obtain ⟨hadmitted, hcompiles, hwritten, husage⟩ := hgivenParts
  have hcompleted : given.completed = given := by
    rw [completed, husage]
    exact if_neg (by decide +kernel)
  obtain ⟨⟨same, hsame, -, -, hlarge⟩, halike⟩ :=
    compile_despite_counts (ofText?_eq_some_iff.mpr ⟨given, hgiven, rfl⟩) hlength
  cases Option.some.inj (hgiven.symm.trans hsame)
  have hoverfull : given.Overfull := by
    refine ⟨hadmitted, UInt64.size - 1, 1, ?_, ?_, by decide +kernel⟩
    · rw [husage, hwritten]
      decide +kernel
    · rw [husage, hwritten]
      decide +kernel
  refine ⟨given, hgiven, hlarge.mpr hoverfull, ?_, fun context => halike _ ?_ context⟩
  · cases hcompile : given.completed.compile .root with
    | ok compiled => exact ⟨compiled, rfl⟩
    | error cause =>
        rw [hcompile] at hcompiles
        cases hcompiles
  · have husages : Usage.blank ⟨∅, .ofList [("x", 1)], .ofList [("x", 1)]⟩ =
        Usage.blank given.usage := by
      rw [husage]
      decide +kernel
    rw [hcompleted, blank, blank, husages]

end Definition
end Memograph
