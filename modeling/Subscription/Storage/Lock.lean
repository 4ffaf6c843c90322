import Subscription.Files.Path
import Subscription.Files.System
import Subscription.Json.Printer
import Subscription.Json.Reader

/-!
The operation lock: at most one operation at a time may change a machine. On disk the lock is a file
that only one process can make and that tells who made it. A file that a process has left behind is
removed, and the lock is then tried for once more.
-/

namespace Subscription

/-- A lock on the machine. -/
structure OperationLock (m : Type → Type) where
  acquire : Text → ExceptT Fault m Unit
  release : ExceptT Fault m Unit

namespace OperationLock

variable {m : Type → Type} [Monad m]

def thenRelease {α : Type} (lock : OperationLock m) (body : ExceptT Fault m α) :
    ExceptT Fault m α := do
  let result ← ExceptT.lift body.run
  lock.release
  ExceptT.mk (pure result)

def during {α : Type} (lock : OperationLock m) (command : Text) (body : ExceptT Fault m α) :
    ExceptT Fault m α := do
  lock.acquire command
  lock.thenRelease body

def inMemory (pid : Number) (now : m String) (holder : Cell m (Option LockHolder)) :
    OperationLock m where
  acquire command := do
    match ← holder.get with
    | some h => throw (.lockHeld command h)
    | none => holder.set (some ⟨pid, command, ← now⟩)
  release := ExceptT.lift (holder.set none)

end OperationLock

namespace LockHolder

def toJson (h : LockHolder) : Json :=
  .object [("pid", .number h.pid), ("command", .string h.command),
    ("acquired_at", .string h.acquiredAt)]

def ofText? (text : String) : Option LockHolder := do
  let v ← Json.parse text
  let pid ← (v.get? "pid").bind Json.number?
  let command ← (v.get? "command").bind Json.string?
  let acquiredAt ← (v.get? "acquired_at").bind Json.string?
  return ⟨pid, command, acquiredAt⟩

def unknown : LockHolder :=
  ⟨.ofInt (-1), "unknown", ""⟩

end LockHolder

structure FileLock (m : Type → Type) where
  files : FileSystem m
  path : String
  pid : Number
  now : m String
  isRunning : Int → m Bool
  held : Cell m Bool

namespace FileLock

variable {m : Type → Type} [Monad m]

def pathIn (home : String) : String :=
  Path.join [home, "lock"]

def tryCreate (l : FileLock m) (command : Text) : ExceptT Fault m Bool := do
  let holder : LockHolder := ⟨l.pid, command, ← l.now⟩
  match ← l.files.create l.path holder.toJson.compact with
  | .ok () =>
    l.held.set true
    return true
  | .error .taken => return false
  | .error e => throw (.file e)

def readHolder (l : FileLock m) : ExceptT Fault m (Option LockHolder) := do
  match ← l.files.read l.path with
  | .ok text => return LockHolder.ofText? text
  | .error .missing => return none
  | .error e => throw (.file e)

/-- Whether a holder is a process that still runs. A process has an integer of 32 bits as its
number. -/
def isAlive (l : FileLock m) (h : LockHolder) : m Bool :=
  match h.pid.toInt? with
  | some n => if -0x80000000 ≤ n ∧ n < 0x80000000 then l.isRunning n else pure false
  | none => pure false

def liveHolder? (l : FileLock m) : ExceptT Fault m (Option LockHolder) := do
  match ← l.readHolder with
  | some h => return if ← l.isAlive h then some h else none
  | none => return none

def acquire (l : FileLock m) (command : Text) : ExceptT Fault m Unit := do
  if ← l.tryCreate command then return
  match ← l.liveHolder? with
  | some h => throw (.lockHeld command h)
  | none =>
    ofFileResult (l.files.remove l.path)
    if ← l.tryCreate command then return
    throw (.lockHeld command ((← l.readHolder).getD .unknown))

def release (l : FileLock m) : ExceptT Fault m Unit := do
  if ← l.held.get then
    ofFileResult (l.files.remove l.path)
    l.held.set false

def lock (l : FileLock m) : OperationLock m :=
  ⟨l.acquire, l.release⟩

end FileLock

end Subscription
