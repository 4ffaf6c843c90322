import Subscription.Operation.Action
import Subscription.Operation.Report

/-!
Reports for people to read. What was done goes to the output stream, what went wrong to the error
stream.
-/

namespace Subscription

structure Rendering where
  out : List Text
  err : List Text

def rebootNotice : Text :=
  "A reboot is required to complete the operation."

def Action.participle : Action → Text
  | .enable | .attach | .autoAttach => "enabled"
  | .disable | .detach | .refresh => "disabled"

/-- A report in lines: the warnings, what became of each processed service, and the reboot notice;
and apart from them the errors. -/
def Report.rendering (r : Report) (action : Action) : Rendering where
  out := r.warnings.map (·.message) ++ r.processed.map (fun n => n ++ " " ++ action.participle) ++
    if r.needsReboot then [rebootNotice] else []
  err := r.errors.map (·.message)

end Subscription
