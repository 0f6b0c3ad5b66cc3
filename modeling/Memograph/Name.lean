/-! Names of tracked variables. A variable is addressed by a `QualifiedName`: the context it lives
in and its local name. A name as written is qualified against the active context: without a dot it
belongs to that context, with a dot everything before the last one is a context of its own. -/

namespace Memograph

/-- A naming context such as `s.sub`: its segments from the outside in. The root has none. -/
structure ContextPath where
  segments : List String
  deriving DecidableEq, Repr, Inhabited

namespace ContextPath

def root : ContextPath := ⟨[]⟩

/-- The context of a dotted path given as characters; empty segments are dropped. -/
def ofChars (path : List Char) : ContextPath :=
  ⟨((path.splitOn '.').filter fun segment => !segment.isEmpty).map String.ofList⟩

/-- The context of a dotted path; empty segments are dropped, so `a..b` is `a.b`. -/
def parse (path : String) : ContextPath := ofChars path.toList

/-- The context one segment further in. The segment is taken as it is, dots included. -/
def child (path : ContextPath) (segment : String) : ContextPath :=
  ⟨path.segments ++ [segment]⟩

def isRoot (path : ContextPath) : Bool := path.segments.isEmpty

/-- The segments joined by dots; the root is the empty text. -/
def display (path : ContextPath) : String := ".".intercalate path.segments

end ContextPath

/-- The address of a tracked variable. -/
structure QualifiedName where
  context : ContextPath
  localName : String
  deriving DecidableEq, Repr, Inhabited

namespace QualifiedName

/-- The context and the local name with a dot between them, so a root variable is `.x`. -/
def display (name : QualifiedName) : String := name.context.display ++ "." ++ name.localName

end QualifiedName

def splitLastDot : List Char → Option (List Char × List Char)
  | [] => none
  | c :: rest =>
    match splitLastDot rest with
    | some (before, after) => some (c :: before, after)
    | none => if c = '.' then some ([], rest) else none

/-- The variable that a name written in `context` stands for. Every text stands for some variable;
whether it is well formed is asked by `isValidName`. -/
def qualify (context : ContextPath) (written : String) : QualifiedName :=
  match splitLastDot written.toList with
  | some (before, after) => ⟨ContextPath.ofChars before, String.ofList after⟩
  | none => ⟨context, written⟩

/-- A letter or an underscore, of the ASCII range. -/
def isNameStart (c : Char) : Bool := c.isAlpha || c == '_'

/-- A letter, a digit or an underscore, of the ASCII range. -/
def isNameRest (c : Char) : Bool := c.isAlphanum || c == '_'

def isIdentifier : List Char → Bool
  | [] => false
  | c :: rest => isNameStart c && rest.all isNameRest

def dropLeadingDot : List Char → List Char
  | '.' :: rest => rest
  | text => text

/-- Whether a written name is one or more identifiers joined by dots, with at most one more dot in
front. -/
def isValidName (written : String) : Bool :=
  ((dropLeadingDot written.toList).splitOn '.').all isIdentifier

/-- Whether a written name brings its own context. -/
def isDotted (written : String) : Bool := written.toList.contains '.'

end Memograph
