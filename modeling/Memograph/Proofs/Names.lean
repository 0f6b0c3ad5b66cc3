import Memograph.Resolution
import Memograph.Proofs.Lists

/-! The names of an expression against the tables of its usage and the bindings that a compiled
definition gives them. The tables list the names in the order in which the walk first meets them;
compiling removes the indexer and the locals from them and qualifies what is left. -/

namespace Memograph

namespace Expr

mutual

/-- The variables of an expression as written, in the order of the walk that counts them. -/
def names : Expr → List String
  | .constant _ => []
  | .name written => [written]
  | .vector items => namesOfAll items
  | .item target index => names target ++ names index
  | .unary _ operand => names operand
  | .binary _ left right => names left ++ names right
  | .assign _ value => names value
  | .sequence statements => namesOfAll statements

/-- The variables of expressions one after the other. -/
def namesOfAll : List Expr → List String
  | [] => []
  | expr :: exprs => names expr ++ namesOfAll exprs

end

mutual

/-- The names that an expression assigns as written, in the order of the walk. -/
def targets : Expr → List String
  | .constant _ => []
  | .name _ => []
  | .vector items => targetsOfAll items
  | .item target index => targets target ++ targets index
  | .unary _ operand => targets operand
  | .binary _ left right => targets left ++ targets right
  | .assign written value => targets value ++ [written]
  | .sequence statements => targetsOfAll statements

/-- The names that expressions assign one after the other. -/
def targetsOfAll : List Expr → List String
  | [] => []
  | expr :: exprs => targets expr ++ targetsOfAll exprs

end

end Expr

/-! ### Usage -/

namespace Usage

/-- Whether the tables of a usage list the given reads and assignments, each name once. -/
structure Records (usage : Usage) (reads targets : List String) : Prop where
  accessing : usage.accessing.keys = reads.eraseDups
  localAssignment :
    usage.localAssignment.keys = (targets.filter fun written => !isDotted written).eraseDups
  globalAssignment : usage.globalAssignment.keys = (targets.filter isDotted).eraseDups

theorem keys_countUp (table : Table String Nat) (written : String) (count : Nat) :
    (countUp table written count).keys =
      if written ∈ table.keys then table.keys else table.keys ++ [written] :=
  Table.keys_insert _ _ _

theorem keys_countUp_of_eraseDups {table : Table String Nat} {names : List String}
    (h : table.keys = names.eraseDups) (written : String) (count : Nat) :
    (countUp table written count).keys = (names ++ [written]).eraseDups := by
  simp only [keys_countUp, h, List.mem_eraseDups, Lists.eraseDups_concat]

theorem Records.addAccess {usage : Usage} {reads targets : List String}
    (h : usage.Records reads targets) (written : String) :
    (usage.addAccess written).Records (reads ++ [written]) targets :=
  ⟨keys_countUp_of_eraseDups h.accessing written 1, h.localAssignment, h.globalAssignment⟩

theorem Records.addAssignment {usage : Usage} {reads targets : List String}
    (h : usage.Records reads targets) (written : String) :
    (usage.addAssignment written).Records reads (targets ++ [written]) := by
  unfold Usage.addAssignment
  by_cases hdot : isDotted written = true
  · rw [if_pos hdot]
    refine ⟨h.accessing, ?_, ?_⟩
    · simpa [List.filter_append, hdot] using h.localAssignment
    · simpa [List.filter_append, hdot] using
        keys_countUp_of_eraseDups h.globalAssignment written 1
  · rw [if_neg hdot]
    refine ⟨h.accessing, ?_, ?_⟩
    · simpa [List.filter_append, hdot] using
        keys_countUp_of_eraseDups h.localAssignment written 1
    · simpa [List.filter_append, hdot] using h.globalAssignment

mutual

theorem Records.addExpr {usage : Usage} {reads targets : List String}
    (h : usage.Records reads targets) :
    ∀ expr : Expr, (usage.addExpr expr).Records (reads ++ expr.names) (targets ++ expr.targets)
  | .constant _ => by simpa [Usage.addExpr, Expr.names, Expr.targets] using h
  | .name written => by simpa [Usage.addExpr, Expr.names, Expr.targets] using h.addAccess written
  | .vector items => by
      simpa only [Usage.addExpr, Expr.names, Expr.targets] using Records.addExprs h items
  | .item target index => by
      simpa only [Usage.addExpr, Expr.names, Expr.targets, List.append_assoc] using
        Records.addExpr (Records.addExpr h target) index
  | .unary _ operand => by
      simpa only [Usage.addExpr, Expr.names, Expr.targets] using Records.addExpr h operand
  | .binary _ left right => by
      simpa only [Usage.addExpr, Expr.names, Expr.targets, List.append_assoc] using
        Records.addExpr (Records.addExpr h left) right
  | .assign written value => by
      simpa only [Usage.addExpr, Expr.names, Expr.targets, List.append_assoc] using
        (Records.addExpr h value).addAssignment written
  | .sequence statements => by
      simpa only [Usage.addExpr, Expr.names, Expr.targets] using Records.addExprs h statements

theorem Records.addExprs {usage : Usage} {reads targets : List String}
    (h : usage.Records reads targets) :
    ∀ exprs : List Expr, (usage.addExprs exprs).Records (reads ++ Expr.namesOfAll exprs)
      (targets ++ Expr.targetsOfAll exprs)
  | [] => by simpa [Usage.addExprs, Expr.namesOfAll, Expr.targetsOfAll] using h
  | expr :: exprs => by
      simpa only [Usage.addExprs, Expr.namesOfAll, Expr.targetsOfAll, List.append_assoc] using
        Records.addExprs (Records.addExpr h expr) exprs

end

theorem records_ofExpr (expr : Expr) : (ofExpr expr).Records expr.names expr.targets := by
  have hempty : empty.Records [] [] := ⟨rfl, rfl, rfl⟩
  simpa only [List.nil_append, ofExpr] using hempty.addExpr expr

end Usage
end Memograph
