import Subscription.Host.Machine
import Subscription.Storage.Lock

/-!
Several contenders for the lock of one home directory. What they share is the machine; each of them
remembers whether it has taken the lock.
-/

namespace Subscription

abbrev Contest :=
  StateT (List Nat) (StateM Machine)

namespace Contest

def heldCell (contender : Nat) : Cell Contest Bool where
  get := return decide (contender ∈ (← getThe (List Nat)))
  set held := modifyThe (List Nat) fun holding =>
    let others := holding.filter (· ≠ contender)
    if held then contender :: others else others

def fileLock (home now : String) (pid : Number) (contender : Nat) : FileLock Contest where
  files := Machine.files
  path := FileLock.pathIn home
  pid := pid
  now := pure now
  isRunning := Machine.isRunning
  held := heldCell contender

end Contest

end Subscription
