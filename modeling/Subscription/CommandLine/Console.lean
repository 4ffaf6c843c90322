import Subscription.CommandLine.Style
import Subscription.Manager.Basic
import Subscription.View.Rendering

/-!
The console: where a command writes, whom it asks, and how it gets at a manager.
-/

namespace Subscription.CommandLine

structure Console (m : Type → Type) where
  out : Text → m Unit
  err : Text → m Unit
  isRoot : Bool
  /-- Asks the operator a question that only a clear yes answers with yes. -/
  confirm : Text → m Bool
  color : Bool
  manager : ExceptT Fault m (Manager m)

namespace Console

variable {m : Type → Type} [Monad m]

def outLines (c : Console m) : List Text → m Unit
  | [] => pure ()
  | line :: lines => do
    c.out line
    c.outLines lines

def errLines (c : Console m) : List Text → m Unit
  | [] => pure ()
  | line :: lines => do
    c.err line
    c.errLines lines

def styled (c : Console m) (style : Style) (t : Text) : Text :=
  style.apply c.color t

def lineStyle (r : Report) (line : Text) : Style :=
  if line = rebootNotice ∨ line ∈ r.warnings.map (·.message) then .warn else .ok

def exitCode (r : Report) : Nat :=
  match r.verdict with
  | .success => 0
  | .failure => 1

def printReport (c : Console m) (r : Report) (action : Action) (format : Format) : m Nat := do
  match format with
  | .json => c.out r.toJson.indented
  | .text =>
    let lines := r.rendering action
    c.outLines (lines.out.map fun line => c.styled (lineStyle r line) line)
    c.errLines (lines.err.map (c.styled .error))
  return exitCode r

end Console

end Subscription.CommandLine
