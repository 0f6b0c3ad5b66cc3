import Memograph.Value

/-! Expressions: the bodies of definitions and what is evaluated at top level. -/

namespace Memograph

inductive UnaryOp where
  | negate
  deriving DecidableEq, Repr

inductive BinaryOp where
  | add
  | subtract
  | multiply
  | divide
  deriving DecidableEq, Repr

def UnaryOp.apply : UnaryOp → Value → Except Error Value
  | .negate, value => .ok value.negate

def BinaryOp.apply : BinaryOp → Value → Value → Except Error Value
  | .add => Value.add
  | .subtract => Value.subtract
  | .multiply => Value.multiply
  | .divide => Value.divide

/-- An expression. Names stand as they were written. -/
inductive Expr where
  | constant (value : Value)
  /-- The value of a variable. -/
  | name (written : String)
  | vector (items : List Expr)
  | item (target index : Expr)
  | unary (op : UnaryOp) (operand : Expr)
  | binary (op : BinaryOp) (left right : Expr)
  /-- Gives a variable the value of an expression, and is that value. -/
  | assign (written : String) (value : Expr)
  /-- One statement after the other; the value is that of the last. -/
  | sequence (statements : List Expr)
  deriving Inhabited, Repr

namespace Expr

mutual

/-- Equality of expressions; constants are compared as values are. -/
def same : Expr → Expr → Bool
  | .constant a, .constant b => a.same b
  | .name a, .name b => a == b
  | .vector a, .vector b => sameList a b
  | .item target index, .item target' index' => same target target' && same index index'
  | .unary op operand, .unary op' operand' => op == op' && same operand operand'
  | .binary op left right, .binary op' left' right' =>
    op == op' && same left left' && same right right'
  | .assign written value, .assign written' value' => written == written' && same value value'
  | .sequence a, .sequence b => sameList a b
  | _, _ => false

def sameList : List Expr → List Expr → Bool
  | [], [] => true
  | a :: as, b :: bs => same a b && sameList as bs
  | _, _ => false

end

end Expr
end Memograph
