import Subscription.Files.System

/-!
The home directory of the program, which holds all that it keeps.
-/

namespace Subscription.Host

def defaultHome : String :=
  "/var/lib/entitle"

def homeVariable : String :=
  "PRO_HOME"

/-- The home directory: the one asked for, or the one the environment names, or the usual one. An
empty name counts as none. -/
def chooseHome (option named : Option String) : String :=
  ((option.filter (· ≠ "")).or (named.filter (· ≠ ""))).getD defaultHome

def prepareHome {m : Type → Type} [Monad m] (files : FileSystem m) (home : String) :
    ExceptT Fault m Unit := do
  if !(← files.isPresent home) then
    ofFileResult (files.makeDirs home)

end Subscription.Host
