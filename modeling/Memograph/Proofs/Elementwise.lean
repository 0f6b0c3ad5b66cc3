import Mathlib.Data.List.Basic
import Memograph.Expr
import Memograph.Proofs.Floats

/-! Arithmetic on nested values. Two values are walked through together, from the outside in and
from the first item to the last: vectors item by item, and a number against every item of the vector
opposite it. A pair that the walk comes to is addressed by the positions that lead to it, so the
walk meets the pairs in the lexicographic order of their addresses. An operation fails with the
first thing that is wrong with a pair, two lengths that differ or a divisor that is zero, and if
nothing is, its result has a number wherever two numbers meet. -/

namespace Memograph

/-! ### What is asked of an operation -/

namespace BinaryOp

/-- The name of an operation in an error. -/
def operation : BinaryOp → Operation
  | .add => .add
  | .subtract => .subtract
  | .multiply => .multiply
  | .divide => .divide

/-- The operation on integers, which division has not. -/
def onIntegers? : BinaryOp → Option (Int → Int → Int)
  | .add => some (· + ·)
  | .subtract => some (· - ·)
  | .multiply => some (· * ·)
  | .divide => none

/-- The operation on floats. -/
def rounded : BinaryOp → Float → Float → Float
  | .add => (· + ·)
  | .subtract => (· - ·)
  | .multiply => (· * ·)
  | .divide => (· / ·)

/-- The number that an operation makes of two. It is an integer if both are, the operation has one
for them and it fits sixty-four bits, and otherwise the float of the operation. -/
inductive Gives (op : BinaryOp) : Scalar → Scalar → Scalar → Prop where
  | exact {f : Int → Int → Int} {m n k : Int64} (hop : op.onIntegers? = some f)
      (h : k.toInt = f m.toInt n.toInt) : Gives op (.int m) (.int n) (.int k)
  | overflow {f : Int → Int → Int} {m n : Int64} (hop : op.onIntegers? = some f)
      (h : ∀ k : Int64, k.toInt ≠ f m.toInt n.toInt) :
      Gives op (.int m) (.int n) (.float (op.rounded (Float.ofInt m.toInt) (Float.ofInt n.toInt)))
  | inexact {a b : Scalar} (hop : op.onIntegers? = none) :
      Gives op a b (.float (op.rounded a.toFloat b.toFloat))
  | left {x : Float} {b : Scalar} : Gives op (.float x) b (.float (op.rounded x b.toFloat))
  | right {a : Scalar} {y : Float} : Gives op a (.float y) (.float (op.rounded a.toFloat y))

end BinaryOp

/-- Whether a number is zero, of either sign. -/
def Scalar.IsZero : Scalar → Prop
  | .int n => n = 0
  | .float x => (x == 0) = true

namespace Value

/-- The pairs that the items of two values make: those at one position of two vectors of one length,
and a number with every item of the vector opposite it. -/
def itemPairs : Value → Value → List (Value × Value)
  | .array lefts, .array rights => if lefts.length = rights.length then lefts.zip rights else []
  | .array lefts, .scalar b => lefts.map fun left => (left, .scalar b)
  | .scalar a, .array rights => rights.map fun right => (.scalar a, right)
  | .scalar _, .scalar _ => []

/-- Whether the walk over two values comes to a pair by a list of positions. -/
inductive Meets : Value → Value → List Nat → Value → Value → Prop where
  | here (left right : Value) : Meets left right [] left right
  | item {left right nextLeft nextRight a b : Value} {i : Nat} {path : List Nat}
      (hitem : (itemPairs left right)[i]? = some (nextLeft, nextRight))
      (h : Meets nextLeft nextRight path a b) : Meets left right (i :: path) a b

/-- What is wrong with a pair. -/
inductive Fault (op : BinaryOp) : Value → Value → Error → Prop where
  | length {lefts rights : List Value} (h : lefts.length ≠ rights.length) :
      Fault op (.array lefts) (.array rights) (.length op.operation)
  | domain {a b : Scalar} (hop : op = .divide) (h : b.IsZero) :
      Fault op (.scalar a) (.scalar b) (.domain .divide)

/-- Whether nothing is wrong with any pair that the walk comes to. -/
def Faultless (op : BinaryOp) (left right : Value) : Prop :=
  ∀ path a b, Meets left right path a b → ∀ cause, ¬Fault op a b cause

/-- Whether a cause is wrong with a pair that the walk comes to before any other with a fault. -/
def FirstFault (op : BinaryOp) (left right : Value) (cause : Error) : Prop :=
  ∃ path a b, Meets left right path a b ∧ Fault op a b cause ∧
    ∀ other c d, Meets left right other c d → ∀ later, Fault op c d later → ¬other < path

/-- The part of a value that a list of positions leads to. -/
def at? (value : Value) : List Nat → Option Value
  | [] => some value
  | i :: path =>
    match value with
    | .scalar _ => none
    | .array items => items[i]?.bind fun item => item.at? path

/-- Whether a value is the result of an operation on two: it has a vector wherever the walk comes to
one or two vectors, of the same length, a number of the operation wherever two numbers meet, and no
more parts. -/
structure Combines (op : BinaryOp) (left right result : Value) : Prop where
  vectors : ∀ {path a b items}, Meets left right path a b → a = .array items ∨ b = .array items →
    ∃ results, result.at? path = some (.array results) ∧ results.length = items.length
  numbers : ∀ {path a b}, Meets left right path (.scalar a) (.scalar b) →
    ∃ c, result.at? path = some (.scalar c) ∧ op.Gives a b c
  parts : ∀ {path part}, result.at? path = some part → ∃ a b, Meets left right path a b

/-! ### Induction on pairs -/

theorem sizeOf_lt_of_mem {item : Value} {items : List Value} (h : item ∈ items) :
    sizeOf item < sizeOf (Value.array items) := by
  have := List.sizeOf_lt_of_mem h
  rw [array.sizeOf_spec]
  omega

theorem sizeOf_lt_of_mem_itemPairs {left right a b : Value} (h : (a, b) ∈ itemPairs left right) :
    sizeOf a + sizeOf b < sizeOf left + sizeOf right := by
  cases left with
  | scalar n =>
      cases right with
      | scalar m => cases h
      | array rights =>
          obtain ⟨item, hitem, heq⟩ := List.mem_map.mp h
          cases heq
          have := sizeOf_lt_of_mem hitem
          omega
  | array lefts =>
      cases right with
      | scalar m =>
          obtain ⟨item, hitem, heq⟩ := List.mem_map.mp h
          cases heq
          have := sizeOf_lt_of_mem hitem
          omega
      | array rights =>
          rw [itemPairs] at h
          split at h
          · have hleft := sizeOf_lt_of_mem (List.of_mem_zip h).1
            have hright := sizeOf_lt_of_mem (List.of_mem_zip h).2
            omega
          · cases h

/-- What holds of two values if it holds of the pairs of their items holds of all. -/
theorem induction_itemPairs {P : Value → Value → Prop}
    (h : ∀ left right, (∀ pair ∈ itemPairs left right, P pair.1 pair.2) → P left right)
    (left right : Value) : P left right :=
  h left right fun pair hpair =>
    have := sizeOf_lt_of_mem_itemPairs hpair
    induction_itemPairs h pair.1 pair.2
termination_by sizeOf left + sizeOf right

/-! ### One step of the walk -/

section Step

variable (operation : Operation) (f : Value → Value → Except Error Value)

theorem traverseItems_eq (g : Value → Except Error Value) (items : List Value) :
    traverseItems g items = items.mapM (traverse g) := by
  induction items with
  | nil => rw [traverseItems, List.mapM_nil]; rfl
  | cons item items ih => rw [traverseItems, List.mapM_cons, ih]

theorem traverse_left (b : Scalar) (value : Value) :
    traverse (fun a => f a (.scalar b)) value = zipWith operation f value (.scalar b) := by
  cases value with
  | scalar a => rw [zipWith, traverse, traverse]
  | array items => rw [zipWith, traverse]

theorem zipItems_eq : ∀ {lefts rights : List Value}, lefts.length = rights.length →
    zipItems operation f lefts rights =
      (lefts.zip rights).mapM fun pair => zipWith operation f pair.1 pair.2
  | [], [], _ => by
      rw [zipItems, List.zip_nil_left, List.mapM_nil]
      · rfl
      · exact nofun
  | left :: lefts, right :: rights, h => by
      rw [zipItems, List.zip_cons_cons, List.mapM_cons, zipItems_eq (Nat.succ.inj h)]

/-- Two vectors of one length, or a vector and a number, come to the results of the pairs of their
items. -/
theorem zipWith_of_itemPairs {left right : Value}
    (hvector : ∀ a b, left = .scalar a → right ≠ .scalar b)
    (hlength : ∀ lefts rights, left = .array lefts → right = .array rights →
      lefts.length = rights.length) :
    zipWith operation f left right =
      .array <$> (itemPairs left right).mapM fun pair => zipWith operation f pair.1 pair.2 := by
  cases left with
  | scalar a =>
      cases right with
      | scalar b => exact absurd rfl (hvector a b rfl)
      | array rights =>
          rw [zipWith, traverse, traverseItems_eq, itemPairs, List.mapM_map]
          rfl
  | array lefts =>
      cases right with
      | scalar b =>
          rw [zipWith, traverseItems_eq, itemPairs, List.mapM_map]
          congr 2
          exact funext fun item => traverse_left operation f b item
      | array rights =>
          have h := hlength lefts rights rfl rfl
          rw [zipWith, if_pos h, itemPairs, if_pos h, zipItems_eq operation f h]

end Step

section Results

variable {α β ε : Type} {f : α → Except ε β}

theorem mapM_eq_ok {l : List α} {results : List β} (h : l.mapM f = .ok results) :
    results.length = l.length ∧
      ∀ (i : Nat) a, l[i]? = some a → ∃ b, results[i]? = some b ∧ f a = .ok b := by
  induction l generalizing results with
  | nil =>
      rw [List.mapM_nil] at h
      cases h
      exact ⟨rfl, nofun⟩
  | cons first l ih =>
      rw [List.mapM_cons] at h
      cases hfirst : f first with
      | error cause =>
          rw [hfirst] at h
          cases h
      | ok b =>
          cases hrest : l.mapM f with
          | error cause =>
              rw [hfirst, hrest] at h
              cases h
          | ok rest =>
              rw [hfirst, hrest] at h
              cases h
              obtain ⟨hlength, hitems⟩ := ih hrest
              refine ⟨congrArg Nat.succ hlength, fun i a hi => ?_⟩
              cases i with
              | zero =>
                  cases hi
                  exact ⟨b, rfl, hfirst⟩
              | succ i => exact hitems i a hi

theorem mapM_eq_error {l : List α} {cause : ε} (h : l.mapM f = .error cause) :
    ∃ (i : Nat) (a : α), l[i]? = some a ∧ f a = .error cause ∧
      ∀ (j : Nat) b, j < i → l[j]? = some b → ∃ result, f b = .ok result := by
  induction l with
  | nil =>
      rw [List.mapM_nil] at h
      cases h
  | cons first l ih =>
      rw [List.mapM_cons] at h
      cases hfirst : f first with
      | error other =>
          rw [hfirst] at h
          cases h
          exact ⟨0, first, rfl, hfirst, fun j b hj => absurd hj (Nat.not_lt_zero j)⟩
      | ok b =>
          cases hrest : l.mapM f with
          | ok rest =>
              rw [hfirst, hrest] at h
              cases h
          | error other =>
              rw [hfirst, hrest] at h
              cases h
              obtain ⟨i, a, hi, ha, hbefore⟩ := ih hrest
              refine ⟨i + 1, a, hi, ha, fun j c hj hc => ?_⟩
              cases j with
              | zero =>
                  cases hc
                  exact ⟨b, hfirst⟩
              | succ j => exact hbefore j c (Nat.lt_of_succ_lt_succ hj) hc

end Results

/-! ### Numbers -/

theorem fits_iff {n : Int} : Scalar.fits n = true ↔ ∃ k : Int64, k.toInt = n := by
  rw [Scalar.fits, decide_eq_true_eq]
  constructor
  · rintro ⟨hlow, hhigh⟩
    exact ⟨Int64.ofIntLE n hlow hhigh, Int64.toInt_ofIntLE⟩
  · rintro ⟨k, rfl⟩
    exact ⟨k.minValue_le_toInt, k.toInt_le⟩

theorem toFloat_eq_zero_iff {a : Scalar} : (a.toFloat == 0) = true ↔ a.IsZero := by
  cases a with
  | int n => exact Floats.ofInt_beq_zero_iff
  | float x => exact Iff.rfl

theorem arithmetic_gives {op : BinaryOp} {f : Int → Int → Int} (hop : op.onIntegers? = some f)
    (a b : Scalar) :
    ∃ c, arithmetic f op.rounded (.scalar a) (.scalar b) = .ok (.scalar c) ∧ op.Gives a b c := by
  cases a with
  | float x => exact ⟨_, rfl, .left⟩
  | int m =>
      cases b with
      | float y => exact ⟨_, rfl, .right⟩
      | int n =>
          rw [arithmetic]
          by_cases hfits : Scalar.fits (f m.toInt n.toInt) = true
          · refine ⟨.int (Int64.ofInt (f m.toInt n.toInt)), if_pos hfits, .exact hop ?_⟩
            obtain ⟨k, hk⟩ := fits_iff.mp hfits
            rw [← hk, Int64.ofInt_toInt]
          · refine ⟨_, if_neg hfits, .overflow hop fun k hk => ?_⟩
            exact hfits (fits_iff.mpr ⟨k, hk⟩)

theorem quotient_gives (a b : Scalar) :
    (b.IsZero ∧ quotient (.scalar a) (.scalar b) = .error (.domain .divide)) ∨
    (¬b.IsZero ∧ ∃ c, quotient (.scalar a) (.scalar b) = .ok (.scalar c) ∧
      BinaryOp.divide.Gives a b c) := by
  by_cases hzero : (b.toFloat == 0) = true
  · exact Or.inl ⟨toFloat_eq_zero_iff.mp hzero, if_pos hzero⟩
  · refine Or.inr ⟨fun h => hzero (toFloat_eq_zero_iff.mpr h), ?_⟩
    exact ⟨_, if_neg hzero, .inexact rfl⟩

/-- What an operation does to two numbers. -/
def onNumbers : BinaryOp → Value → Value → Except Error Value
  | .add => arithmetic (· + ·) (· + ·)
  | .subtract => arithmetic (· - ·) (· - ·)
  | .multiply => arithmetic (· * ·) (· * ·)
  | .divide => quotient

theorem apply_eq (op : BinaryOp) : op.apply = zipWith op.operation (onNumbers op) := by
  cases op <;> rfl

/-! ### Walks -/

section Walk

variable {op : BinaryOp} {left right : Value}

theorem Faultless.of_items (hroot : ∀ cause, ¬Fault op left right cause)
    (hitems : ∀ pair ∈ itemPairs left right, Faultless op pair.1 pair.2) :
    Faultless op left right := by
  intro path a b h
  cases h with
  | here => exact hroot
  | item hitem h => exact hitems _ (List.mem_of_getElem? hitem) _ _ _ h

/-- The first pair of items that has a fault has the first fault of all. -/
theorem FirstFault.of_items {cause : Error} {i : Nat} {pair : Value × Value}
    (hroot : ∀ cause, ¬Fault op left right cause) (hi : (itemPairs left right)[i]? = some pair)
    (h : FirstFault op pair.1 pair.2 cause)
    (hbefore : ∀ (j : Nat) earlier, j < i → (itemPairs left right)[j]? = some earlier →
      Faultless op earlier.1 earlier.2) : FirstFault op left right cause := by
  obtain ⟨path, a, b, hmeets, hfault, hfirst⟩ := h
  refine ⟨i :: path, a, b, .item hi hmeets, hfault, fun other c d hother later hlater hlt => ?_⟩
  cases hother with
  | here => exact hroot later hlater
  | @item _ _ nextLeft nextRight _ _ j rest hitem hrest =>
      rcases List.cons_lt_cons_iff.mp hlt with hj | ⟨rfl, hpath⟩
      · exact hbefore j _ hj hitem _ _ _ hrest _ hlater
      · rw [hi] at hitem
        cases hitem
        exact hfirst _ _ _ hrest _ hlater hpath

theorem combines_numbers {a b c : Scalar} (h : op.Gives a b c) :
    Combines op (.scalar a) (.scalar b) (.scalar c) := by
  constructor
  case vectors =>
    intro path l r items hmeets hvector
    cases hmeets with
    | here => rcases hvector with heq | heq <;> cases heq
    | item hitem hmeets => cases hitem
  case numbers =>
    intro path l r hmeets
    cases hmeets with
    | here => exact ⟨c, rfl, h⟩
    | item hitem hmeets => cases hitem
  case parts =>
    intro path part hpart
    cases path with
    | nil => exact ⟨_, _, .here _ _⟩
    | cons i path => cases hpart

theorem length_itemPairs {items : List Value} (h : left = .array items ∨ right = .array items)
    (hlength : ∀ lefts rights, left = .array lefts → right = .array rights →
      lefts.length = rights.length) :
    (itemPairs left right).length = items.length := by
  cases left with
  | scalar a =>
      cases right with
      | scalar b => rcases h with heq | heq <;> cases heq
      | array rights =>
          rcases h with heq | heq <;> cases heq
          exact List.length_map _
  | array lefts =>
      cases right with
      | scalar b =>
          rcases h with heq | heq <;> cases heq
          exact List.length_map _
      | array rights =>
          have hsame := hlength lefts rights rfl rfl
          have hzip : (lefts.zip rights).length = lefts.length := by
            rw [List.length_zip, hsame, Nat.min_self]
          rw [itemPairs, if_pos hsame, hzip]
          rcases h with heq | heq <;> cases heq
          · rfl
          · exact hsame

theorem Combines.of_items {results : List Value}
    (hvector : ∀ a b, left = .scalar a → right ≠ .scalar b)
    (hlength : ∀ lefts rights, left = .array lefts → right = .array rights →
      lefts.length = rights.length)
    (hresults : results.length = (itemPairs left right).length)
    (hitems : ∀ (i : Nat) pair, (itemPairs left right)[i]? = some pair →
      ∃ result, results[i]? = some result ∧ Combines op pair.1 pair.2 result) :
    Combines op left right (.array results) := by
  have hat {i : Nat} {path : List Nat} {result : Value} (hi : results[i]? = some result) :
      (Value.array results).at? (i :: path) = result.at? path := by
    rw [at?, hi]
    rfl
  constructor
  case vectors =>
    intro path l r items hmeets hitem
    cases hmeets with
    | here => exact ⟨results, rfl, hresults.trans (length_itemPairs hitem hlength)⟩
    | item hnext hmeets =>
        obtain ⟨result, hi, hcombines⟩ := hitems _ _ hnext
        rw [hat hi]
        exact hcombines.vectors hmeets hitem
  case numbers =>
    intro path a b hmeets
    cases hmeets with
    | here => exact absurd rfl (hvector a b rfl)
    | item hnext hmeets =>
        obtain ⟨result, hi, hcombines⟩ := hitems _ _ hnext
        rw [hat hi]
        exact hcombines.numbers hmeets
  case parts =>
    intro path part hpart
    cases path with
    | nil => exact ⟨left, right, .here left right⟩
    | cons i path =>
        have hlt : i < (itemPairs left right).length := by
          rw [← hresults]
          by_contra hge
          rw [at?, List.getElem?_eq_none (Nat.not_lt.mp hge)] at hpart
          cases hpart
        have hnext := List.getElem?_eq_getElem hlt
        obtain ⟨result, hi, hcombines⟩ := hitems i _ hnext
        rw [hat hi] at hpart
        obtain ⟨a, b, hmeets⟩ := hcombines.parts hpart
        exact ⟨a, b, .item hnext hmeets⟩

/-! ### Operations -/

/-- What is to be shown of the result of an operation on two values. -/
def Outcome (op : BinaryOp) (left right : Value) : Except Error Value → Prop
  | .ok result => Faultless op left right ∧ Combines op left right result
  | .error cause => FirstFault op left right cause

theorem outcome_numbers (op : BinaryOp) (a b : Scalar) :
    Outcome op (.scalar a) (.scalar b) (onNumbers op (.scalar a) (.scalar b)) := by
  have hok {c : Scalar} (hzero : op = .divide → ¬b.IsZero) (hgives : op.Gives a b c) :
      Outcome op (.scalar a) (.scalar b) (.ok (.scalar c)) := by
    refine ⟨.of_items (fun cause hfault => ?_) nofun, combines_numbers hgives⟩
    cases hfault with
    | domain hop hb => exact hzero hop hb
  have hexact {f : Int → Int → Int} (hop : op.onIntegers? = some f) (hne : op ≠ .divide) :
      Outcome op (.scalar a) (.scalar b) (arithmetic f op.rounded (.scalar a) (.scalar b)) := by
    obtain ⟨c, hc, hgives⟩ := arithmetic_gives hop a b
    rw [hc]
    exact hok (fun heq => absurd heq hne) hgives
  cases op with
  | add => exact hexact rfl nofun
  | subtract => exact hexact rfl nofun
  | multiply => exact hexact rfl nofun
  | divide =>
      rw [onNumbers]
      rcases quotient_gives a b with ⟨hb, hquotient⟩ | ⟨hb, c, hc, hgives⟩
      · rw [hquotient]
        exact ⟨[], _, _, .here _ _, .domain rfl hb, fun _ _ _ _ _ _ => List.not_lt_nil _⟩
      · rw [hc]
        exact hok (fun _ => hb) hgives

theorem outcome_items (hvector : ∀ a b, left = .scalar a → right ≠ .scalar b)
    (hlength : ∀ lefts rights, left = .array lefts → right = .array rights →
      lefts.length = rights.length)
    (ih : ∀ pair ∈ itemPairs left right, Outcome op pair.1 pair.2 (op.apply pair.1 pair.2)) :
    Outcome op left right (op.apply left right) := by
  have hroot : ∀ cause, ¬Fault op left right cause := by
    intro cause hfault
    cases hfault with
    | length h => exact h (hlength _ _ rfl rfl)
    | domain hop h => exact hvector _ _ rfl rfl
  have happly : op.apply left right =
      .array <$> (itemPairs left right).mapM fun pair => op.apply pair.1 pair.2 := by
    rw [apply_eq]
    exact zipWith_of_itemPairs _ _ hvector hlength
  cases hmap : (itemPairs left right).mapM fun pair => op.apply pair.1 pair.2 with
  | error cause =>
      obtain ⟨i, pair, hi, hpair, hbefore⟩ := mapM_eq_error hmap
      have hfirst := ih pair (List.mem_of_getElem? hi)
      rw [hpair] at hfirst
      rw [happly, hmap]
      refine FirstFault.of_items hroot hi hfirst fun j earlier hj hearlier => ?_
      obtain ⟨result, hresult⟩ := hbefore j earlier hj hearlier
      have hdone := ih earlier (List.mem_of_getElem? hearlier)
      rw [hresult] at hdone
      exact hdone.1
  | ok results =>
      obtain ⟨hresults, hitems⟩ := mapM_eq_ok hmap
      have hdone : ∀ (i : Nat) pair, (itemPairs left right)[i]? = some pair →
          ∃ result, results[i]? = some result ∧ Faultless op pair.1 pair.2 ∧
            Combines op pair.1 pair.2 result := by
        intro i pair hi
        obtain ⟨result, hresult, hpair⟩ := hitems i pair hi
        have hdone := ih pair (List.mem_of_getElem? hi)
        rw [hpair] at hdone
        exact ⟨result, hresult, hdone⟩
      rw [happly, hmap]
      refine ⟨.of_items hroot fun pair hpair => ?_, .of_items hvector hlength hresults ?_⟩
      · obtain ⟨i, hi⟩ := List.mem_iff_getElem?.mp hpair
        obtain ⟨-, -, hfaultless, -⟩ := hdone i pair hi
        exact hfaultless
      · intro i pair hi
        obtain ⟨result, hresult, -, hcombines⟩ := hdone i pair hi
        exact ⟨result, hresult, hcombines⟩

theorem outcome_apply (op : BinaryOp) (left right : Value) :
    Outcome op left right (op.apply left right) := by
  induction left, right using induction_itemPairs with
  | h left right ih =>
      cases left with
      | scalar a =>
          cases right with
          | scalar b =>
              rw [apply_eq, zipWith, traverse]
              exact outcome_numbers op a b
          | array rights => exact outcome_items (fun _ _ _ => nofun) nofun ih
      | array lefts =>
          cases right with
          | scalar b => exact outcome_items nofun (fun _ _ _ => nofun) ih
          | array rights =>
              by_cases hlength : lefts.length = rights.length
              · refine outcome_items nofun (fun l r hl hr => ?_) ih
                cases hl
                cases hr
                exact hlength
              · rw [apply_eq, zipWith, if_neg hlength]
                exact ⟨[], _, _, .here _ _, .length hlength, fun _ _ _ _ _ _ => List.not_lt_nil _⟩

end Walk

/-- An operation on two values succeeds exactly if nothing is wrong with any pair that the walk over
them meets, and then its result combines them. Otherwise it fails with the first fault of the walk,
which is no error of type. -/
theorem apply_elementwise (op : BinaryOp) (left right : Value) :
    ((∃ result, op.apply left right = .ok result) ↔ Faultless op left right) ∧
    (∀ result, op.apply left right = .ok result → Combines op left right result) ∧
    (∀ cause, op.apply left right = .error cause → FirstFault op left right cause) ∧
    ∀ operation, op.apply left right ≠ .error (.type operation) := by
  have houtcome := outcome_apply op left right
  cases happly : op.apply left right with
  | ok result =>
      rw [happly] at houtcome
      refine ⟨iff_of_true ⟨result, rfl⟩ houtcome.1, fun other heq => ?_, nofun, nofun⟩
      cases heq
      exact houtcome.2
  | error cause =>
      rw [happly] at houtcome
      have hfirst : FirstFault op left right cause := houtcome
      obtain ⟨path, a, b, hmeets, hfault, -⟩ := houtcome
      refine ⟨iff_of_false nofun fun h => h path a b hmeets cause hfault, nofun, ?_, ?_⟩
      · intro other heq
        cases heq
        exact hfirst
      · rintro operation heq
        cases heq
        cases hfault

/-- Of a zero divisor inside the first items and the lengths of the second ones, the divisor is met
first. The sum of the greatest integer and one is a float wherever the two meet. -/
theorem apply_elementwise_nested :
    FirstFault .divide
      (.array [.array [.int 1, .int 2], .array [.int 3]])
      (.array [.array [.int 1, .int 0], .array [.int 3, .int 4]]) (.domain .divide) ∧
    Combines .add (.int 9223372036854775807) (.array [.array [], .int 1])
      (.array [.array [], .float (Float.ofInt 9223372036854775807 + Float.ofInt 1)]) := by
  constructor
  · exact (apply_elementwise .divide _ _).2.2.1 _ rfl
  · exact (apply_elementwise .add _ _).2.1 _ rfl

end Value
end Memograph
