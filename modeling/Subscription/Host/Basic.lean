import Subscription.Files.System
import Subscription.Operation.Handler

/-!
The machine that the program runs on: its files and processes, and what belongs to the program's own
process.
-/

namespace Subscription

structure Host (m : Type → Type) where
  files : FileSystem m
  isRunning : Int → m Bool
  pid : Number
  now : m String
  /-- A name that is used nowhere else. -/
  newName : m String
  held : Cell m Bool
  calls : Cell m (List Call)
  setting : String → Option String
  user : Option Int
  onTerminal : Bool
  out : String → m Unit
  err : String → m Unit
  readLine : m String

namespace Host

def isRoot (user : Option Int) : Bool :=
  user = some 0

end Host

end Subscription
