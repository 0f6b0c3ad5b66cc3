import Memograph.Dependency
import Memograph.Text.Quoted

/-! Dependencies described in full, for people to read. -/

namespace Memograph

def braced (items : List String) : String :=
  "\x7b" ++ ", ".intercalate items ++ "\x7d"

/-- A name with labelled fields behind it. -/
def labelled (title : String) (fields : List (String × String)) : String :=
  title ++ " \x7b " ++ ", ".intercalate (fields.map fun field => field.1 ++ ": " ++ field.2) ++
    " \x7d"

def bracketed (items : List String) : String := "[" ++ ", ".intercalate items ++ "]"

def ContextPath.describe (path : ContextPath) : String :=
  labelled "ContextPath" [("segments", bracketed (path.segments.map Text.quote))]

def QualifiedName.describe (name : QualifiedName) : String :=
  labelled "QualifiedName"
    [("context", name.context.describe), ("name", Text.quote name.localName)]

/-- The description of a status, without any value. -/
def Status.describe : Status → String
  | .uninitialized => "Uninitialized"
  | .evaluating => "Evaluating"
  | .valid _ => "Valid"

/-- The description of a dependency that is registered under a name. -/
def Dependency.describe {π : Type} (dependency : Dependency π) (name : QualifiedName) : String :=
  let reads := braced (dependency.reads.map QualifiedName.describe)
  let recomputes := toString dependency.recomputes.toNat
  match dependency.shape with
  | .scalar =>
    "Scalar(" ++ labelled "DependencyItem"
      [("name", name.describe), ("state", (dependency.status none).describe), ("reads", reads),
        ("recompute_count", recomputes)] ++ ")"
  | .itemwise =>
    "Itemwise(" ++ labelled "ItemwiseDependencyItem"
      [("name", name.describe),
        ("cached_indices", bracketed (dependency.validSlots.map fun slot => toString slot.1.toInt)),
        ("reads", reads), ("recompute_count", recomputes)] ++ ")"

end Memograph
