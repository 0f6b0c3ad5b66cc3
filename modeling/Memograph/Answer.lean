import Memograph.Config
import Memograph.Dependency

/-! Answers to the steps of a session. -/

namespace Memograph

/-- Why a step has no other answer. -/
inductive Failure where
  | error (cause : Error)
  /-- The text of a value or expression is not one. -/
  | unreadable
  /-- The step is none that a session knows. -/
  | unknownStep

inductive Answer where
  | failed (failure : Failure)
  | entered (context : ContextPath)
  | invalidated (names : List QualifiedName)
  | defined (name : QualifiedName)
  | value (value : Value)
  | stored (value : Option Value)
  | status (status : Option Status)
  | readers (names : List QualifiedName)
  | source (text : Option String)
  | recomputes (count : Option UInt64)
  | contains (answer : Bool)
  | names (names : List QualifiedName)
  | config (config : Config)
  | items (items : List ItemView)
  | dependency (item : ItemView) (reads : List QualifiedName) (source : Option String)
  | description (text : String)
  | slept (milliseconds : Int)
  | several (answers : List Answer)

/-- The answer that is the value of a computation, or its error. -/
def Answer.ofResult : Except Error Value → Answer
  | .ok result => .value result
  | .error cause => .failed (.error cause)

end Memograph
