import Subscription.CommandLine.Run
import Subscription.Manager.Host

/-!
The program as a process of a machine. Lines go to the streams of the process, the operator answers
on the input stream, and the manager is the one of the machine.
-/

namespace Subscription.CommandLine

variable {m : Type → Type} [Monad m]

def colorVariable : String :=
  "NO_COLOR"

def yesAnswers : List String :=
  ["y", "yes"]

def isYes (line : String) : Bool :=
  let answer := String.ofList (line.toList.takeWhile fun c => c ≠ '\n' && c ≠ '\r')
  Characters.lowercase (Characters.trim answer) ∈ yesAnswers

def hostManager (host : Host m) : ExceptT Fault m (Manager m) := do
  let (manager, warnings) ← host.buildManager
  warnings.forM fun w => ExceptT.lift (host.err s!"[warn] {w.text.toString}\n")
  return manager

def hostConsole (host : Host m) : Console m where
  out text := host.out (text.toString ++ "\n")
  err text := host.err (text.toString ++ "\n")
  isRoot := Host.isRoot host.user
  confirm question := do
    host.err question.toString
    return isYes (← host.readLine)
  color := host.onTerminal && (host.setting colorVariable).isNone
  manager := hostManager host

def runProcess (host : Host m) (args : List String) : ExceptT Fault m Nat :=
  run (hostConsole host) args

end Subscription.CommandLine
