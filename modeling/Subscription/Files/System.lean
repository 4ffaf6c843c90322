import Subscription.Fault

/-!
What the program needs of its surroundings, as operations in a monad of the caller's choice: cells
that hold a value, and a file system.
-/

namespace Subscription

structure Cell (m : Type → Type) (α : Type) where
  get : m α
  set : α → m Unit

structure FileSystem (m : Type → Type) where
  read : String → m (Except FileError String)
  /-- Gives a file a new text; it is made if it is not there. -/
  write : String → String → m (Except FileError Unit)
  append : String → String → m (Except FileError Unit)
  create : String → String → m (Except FileError Unit)
  /-- Removes a file; one that is not there is no error. -/
  remove : String → m (Except FileError Unit)
  /-- Makes a directory and those above it; one that is there is no error. -/
  makeDirs : String → m (Except FileError Unit)
  isPresent : String → m Bool

def ofFileResult {m : Type → Type} [Monad m] {α : Type} (result : m (Except FileError α)) :
    ExceptT Fault m α :=
  ExceptT.mk do return (← result).mapError .file

end Subscription
