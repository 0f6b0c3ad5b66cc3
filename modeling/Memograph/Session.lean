import Memograph.Environment.Run
import Memograph.Session.Step

/-! Sessions: steps taken one after the other from an environment in which nothing has happened. -/

namespace Memograph

structure Session where
  config : Config
  context : ContextPath
  steps : List Step

/-- What came of a step: its answer, what scripts that it set off noted, and all dependencies after
it. -/
structure StepReport where
  answer : Answer
  journal : List Answer
  items : List ItemView

namespace Session

/-- Takes one step, with an empty journal. There is no report where recomputes nest without end. -/
def take (step : Step) (env : Environment Procedure) :
    Option (StepReport × Environment Procedure) :=
  let env := { env with journal := [] }
  (env.run Procedure.dialogue (step.dialogue 0)).map fun (answer, after) =>
    (⟨answer, after.journal, after.items⟩, after)

def takeAll : List Step → Environment Procedure →
    Option (List StepReport × Environment Procedure)
  | [], env => some ([], env)
  | step :: steps, env => do
    let (report, env) ← take step env
    let (reports, env) ← takeAll steps env
    pure (report :: reports, env)

def run (session : Session) : Option (List StepReport × Environment Procedure) :=
  takeAll session.steps (.initial session.config session.context)

end Session
end Memograph
