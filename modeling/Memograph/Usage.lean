import Memograph.Expr
import Memograph.Table

/-! Which names an expression uses: for each name as written, how often it is read, assigned
without a dot and assigned with one. The names of each table are in the order in which a walk over
the expression first meets them; the walk goes from left to right, into a target before its index
and into the value of an assignment before its name is counted. -/

namespace Memograph

/-- How often each name is read and assigned. -/
structure Usage where
  accessing : Table String Nat
  localAssignment : Table String Nat
  globalAssignment : Table String Nat
  deriving DecidableEq

namespace Usage

def empty : Usage := ⟨∅, ∅, ∅⟩

instance : Inhabited Usage := ⟨empty⟩

def isEmpty (usage : Usage) : Bool :=
  usage.accessing.size == 0 && usage.localAssignment.size == 0 && usage.globalAssignment.size == 0

def countUp (table : Table String Nat) (written : String) (count : Nat) : Table String Nat :=
  table.alter written fun old => old.getD 0 + count

def addAccess (usage : Usage) (written : String) : Usage :=
  { usage with accessing := countUp usage.accessing written 1 }

/-- Counts an assignment, as a global one if the name has a dot. -/
def addAssignment (usage : Usage) (written : String) : Usage :=
  if isDotted written then
    { usage with globalAssignment := countUp usage.globalAssignment written 1 }
  else
    { usage with localAssignment := countUp usage.localAssignment written 1 }

mutual

/-- Counts the names of an expression on top of a usage. -/
def addExpr (usage : Usage) : Expr → Usage
  | .constant _ => usage
  | .name written => usage.addAccess written
  | .vector items => addExprs usage items
  | .item target index => addExpr (addExpr usage target) index
  | .unary _ operand => addExpr usage operand
  | .binary _ left right => addExpr (addExpr usage left) right
  | .assign written value => (addExpr usage value).addAssignment written
  | .sequence statements => addExprs usage statements

def addExprs (usage : Usage) : List Expr → Usage
  | [] => usage
  | expr :: exprs => addExprs (addExpr usage expr) exprs

end

def ofExpr (expr : Expr) : Usage := addExpr empty expr

/-- Whether two usages have the same counts, in whatever order. -/
def agrees (usage usage' : Usage) : Bool :=
  usage.accessing.agrees usage'.accessing &&
    usage.localAssignment.agrees usage'.localAssignment &&
    usage.globalAssignment.agrees usage'.globalAssignment

end Usage
end Memograph
