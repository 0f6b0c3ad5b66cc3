import Memograph.Error
import Memograph.Binary64

/-! Values of variables: numbers, and vectors nested to any depth. Arithmetic is element by
element, and a number on one side is repeated against every element on the other. Integers have
sixty-four bits; where an integer result does not fit, the float of the operation takes its
place. -/

namespace Memograph

inductive Scalar where
  | int (value : Int64)
  | float (value : Float)
  deriving DecidableEq, Repr

/-- A number or a vector of values. -/
inductive Value where
  | scalar (leaf : Scalar)
  | array (items : List Value)
  deriving Inhabited, Repr

namespace Scalar

/-- The float of a number; an integer goes to the nearest one. -/
def toFloat : Scalar → Float
  | .int n => Float.ofInt n.toInt
  | .float x => x

/-- Equality of numbers of one kind. Floats compare by value, so zero equals its negative and NaN
equals nothing; an integer never equals a float. -/
def same : Scalar → Scalar → Bool
  | .int m, .int n => m == n
  | .float x, .float y => x == y
  | _, _ => false

/-- Whether an integer has sixty-four bits. -/
def fits (n : Int) : Bool := decide (Int64.minValue.toInt ≤ n ∧ n ≤ Int64.maxValue.toInt)

/-- The number with its sign turned. The least integer has no negative and becomes a float. -/
def negate : Scalar → Scalar
  | .int n =>
    if fits (-n.toInt) then .int (Int64.ofInt (-n.toInt))
    else .float (-(Float.ofInt n.toInt))
  | .float x => .float (-x)

/-- The index that a number is. A float is one if it is whole, and is taken to the nearest end of
the range where it lies beyond. -/
def asIndex : Scalar → Except Error Int64
  | .int n => .ok n
  | .float x =>
    match (Binary64.ofFloat? x).bind Binary64.toInt? with
    | some n => .ok (Int64.ofIntClamp n)
    | none => .error (.domain .index)

end Scalar

namespace Value

def int (n : Int64) : Value := .scalar (.int n)

def float (x : Float) : Value := .scalar (.float x)

/-! ### Element by element -/

mutual

/-- Applies an operation to every number of a value. -/
def map (f : Scalar → Scalar) : Value → Value
  | .scalar a => .scalar (f a)
  | .array items => .array (mapItems f items)

def mapItems (f : Scalar → Scalar) : List Value → List Value
  | [] => []
  | item :: items => map f item :: mapItems f items

end

mutual

/-- Applies an operation that can fail to every number of a value, first to last; the first failure
is the result. -/
def traverse (f : Value → Except Error Value) : Value → Except Error Value
  | .scalar a => f (.scalar a)
  | .array items => .array <$> traverseItems f items

def traverseItems (f : Value → Except Error Value) : List Value → Except Error (List Value)
  | [] => .ok []
  | item :: items => do
    let item ← traverse f item
    let items ← traverseItems f items
    pure (item :: items)

end

mutual

/-- Pairs the numbers of two values and applies an operation to each pair. Vectors are paired item
by item and must have one length, which is asked before any item is looked at; a number is paired
with every number of the vector opposite. The first failure is the result. -/
def zipWith (operation : Operation) (f : Value → Value → Except Error Value) :
    Value → Value → Except Error Value
  | .scalar a, right => traverse (f (.scalar a)) right
  | .array left, .scalar b => .array <$> traverseItems (fun a => f a (.scalar b)) left
  | .array left, .array right =>
    if left.length = right.length then .array <$> zipItems operation f left right
    else .error (.length operation)

def zipItems (operation : Operation) (f : Value → Value → Except Error Value) :
    List Value → List Value → Except Error (List Value)
  | left :: lefts, right :: rights => do
    let item ← zipWith operation f left right
    let items ← zipItems operation f lefts rights
    pure (item :: items)
  | _, _ => .ok []

end

/-- The float of a value that is a number; a vector has none. -/
def asFloat : Value → Except Error Float
  | .scalar a => .ok a.toFloat
  | .array _ => .error (.type .scalar)

/-- An operation that is exact on integers while the result fits, and else the one on floats. -/
def arithmetic (exact : Int → Int → Int) (rounded : Float → Float → Float) :
    Value → Value → Except Error Value
  | .scalar (.int m), .scalar (.int n) =>
    let result := exact m.toInt n.toInt
    if Scalar.fits result then .ok (int (Int64.ofInt result))
    else .ok (float (rounded (Float.ofInt m.toInt) (Float.ofInt n.toInt)))
  | a, b => do
    let x ← a.asFloat
    let y ← b.asFloat
    pure (float (rounded x y))

/-- The quotient of two numbers, always a float. A divisor that is zero is a domain error. -/
def quotient (a b : Value) : Except Error Value := do
  let divisor ← b.asFloat
  if divisor == 0 then .error (.domain .divide)
  else do
    let dividend ← a.asFloat
    pure (float (dividend / divisor))

def add : Value → Value → Except Error Value := zipWith .add (arithmetic (· + ·) (· + ·))

def subtract : Value → Value → Except Error Value := zipWith .subtract (arithmetic (· - ·) (· - ·))

def multiply : Value → Value → Except Error Value := zipWith .multiply (arithmetic (· * ·) (· * ·))

def divide : Value → Value → Except Error Value := zipWith .divide quotient

/-- The value with the sign of every number turned. -/
def negate : Value → Value := map Scalar.negate

/-! ### Items and indices -/

/-- The item of a vector at an index, counted from zero. -/
def select (value : Value) (index : Int64) : Except Error Value :=
  match value with
  | .scalar _ => .error (.type .index)
  | .array items =>
    if index.toInt < 0 then .error (.index index items.length)
    else
      match items[index.toInt.toNat]? with
      | some item => .ok item
      | none => .error (.index index items.length)

mutual

/-- The index that a value is: that of a number, or of the only item of a vector. -/
def asIndex : Value → Except Error Int64
  | .scalar a => a.asIndex
  | .array items => asIndexOfItems items

def asIndexOfItems : List Value → Except Error Int64
  | [item] => asIndex item
  | _ => .error (.length .index)

end

/-! ### Equality -/

mutual

/-- Equality of shape, of the kind of every number and of its value. -/
def same : Value → Value → Bool
  | .scalar a, .scalar b => a.same b
  | .array left, .array right => sameItems left right
  | _, _ => false

def sameItems : List Value → List Value → Bool
  | [], [] => true
  | left :: lefts, right :: rights => same left right && sameItems lefts rights
  | _, _ => false

end

end Value
end Memograph
