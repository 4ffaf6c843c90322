import Subscription.Manager.Basic

/-!
A manager that works in memory only. What it looks up is given to it as values, for as long as they
hold; what it has done so far is all in its state.
-/

namespace Subscription

inductive Lookup where
  | contract (token : Text)
  | instanceToken
deriving DecidableEq

/-- All that an embedded manager works on. -/
structure Embedded where
  memory : Memory
  holder : Option LockHolder
  calls : List Call
  lookups : List Lookup

namespace Embedded

def empty : Embedded :=
  ⟨.empty, none, [], []⟩

/-- The world as it is for an embedded manager. -/
structure World where
  catalog : Catalog
  series : Text
  allowBeta : Bool
  handler : Handler
  contracts : Text → Except Fault (Option Contract)
  instanceToken : Except Fault (Option InstanceToken)
  logged : Bool
  pid : Number
  now : String

variable {m : Type → Type} [Monad m] [MonadStateOf Embedded m]

def memoryCell : Cell m Memory where
  get := return (← getThe Embedded).memory
  set x := modifyThe Embedded fun e => { e with memory := x }

def holderCell : Cell m (Option LockHolder) where
  get := return (← getThe Embedded).holder
  set x := modifyThe Embedded fun e => { e with holder := x }

def callsCell : Cell m (List Call) where
  get := return (← getThe Embedded).calls
  set x := modifyThe Embedded fun e => { e with calls := x }

def ask {α : Type} (question : Lookup) (answer : Except Fault α) : ExceptT Fault m α := do
  modifyThe Embedded fun e => { e with lookups := e.lookups ++ [question] }
  ExceptT.mk (pure answer)

/-- The name of the next record of the log. Records are numbered from one. -/
def nextEvent : m String := do
  let n := ((← getThe Embedded).memory.lines Storage.operationLog).length + 1
  return s!"event-{n}"

def manager (w : World) : Manager m where
  catalog := w.catalog
  series := w.series
  allowBeta := w.allowBeta
  handler := w.handler
  calls := callsCell
  storage := Storage.inMemory memoryCell
  lock := OperationLock.inMemory w.pid (pure w.now) holderCell
  contracts token := ask (.contract token) (w.contracts token)
  instanceToken := ask .instanceToken w.instanceToken
  now := pure w.now
  nextEvent := if w.logged then some nextEvent else none

end Embedded

end Subscription
