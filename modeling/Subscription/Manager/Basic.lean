import Subscription.Manager.Operation
import Subscription.Storage.Attachment
import Subscription.Storage.Lock
import Subscription.View.Help
import Subscription.View.Status

/-!
The manager carries an operation through from end to end: it takes the lock, reads the attachment,
resolves the operation, stores the next attachment if there is one, adds a record to the log, and
gives the lock back. Nothing is kept between operations but what is stored. Questions take no lock
and change nothing.
-/

namespace Subscription

structure Performed where
  report : Report
  attachment : Attachment

/-- A manager, and what it works with. -/
structure Manager (m : Type → Type) where
  catalog : Catalog
  series : Text
  allowBeta : Bool
  handler : Handler
  calls : Cell m (List Call)
  storage : Storage m
  lock : OperationLock m
  contracts : Text → ExceptT Fault m (Option Contract)
  instanceToken : ExceptT Fault m (Option InstanceToken)
  now : m String
  /-- A name for the next record of the operation log, if there is a log. -/
  nextEvent : Option (m String)

namespace Manager

variable {m : Type → Type} [Monad m]

def attachment (mgr : Manager m) : ExceptT Fault m Attachment :=
  mgr.storage.readAttachment

def help (mgr : Manager m) (name : Text) : ExceptT Fault m HelpPage :=
  mgr.catalog.helpPage name mgr.series

/-- The status of the machine. Services in beta are listed as asked for, and otherwise when they may
be named. -/
def status (mgr : Manager m) (includeBeta : Option Bool) : ExceptT Fault m Status := do
  return .ofAttachment mgr.catalog (← mgr.attachment) mgr.series (includeBeta.getD mgr.allowBeta)

/-- Has the handler called as a computation demands. -/
def settle {α : Type} (mgr : Manager m) (r : Resolving α) : ExceptT Fault m α := do
  let (result, calls) := r.run.run (← mgr.calls.get)
  mgr.calls.set calls
  ExceptT.mk (pure result)

def context (mgr : Manager m) (a : Attachment) : ExceptT Fault m Context := do
  return ⟨mgr.catalog, mgr.handler, mgr.series, ← mgr.now, a⟩

/-- Resolves an operation on an attachment, looking up what it needs to know on the way. No contract
is looked up for a machine that is attached already, or that has none to refresh. -/
def resolve (mgr : Manager m) (op : Operation) (a : Attachment) : ExceptT Fault m Resolution := do
  let ctx ← mgr.context a
  match op with
  | .change action names assumeYes allowBeta =>
    mgr.settle (resolveRequest ctx ⟨action, names, assumeYes, allowBeta || mgr.allowBeta⟩)
  | .attach token autoEnable =>
    let contract ← if a.attached then pure none else mgr.contracts token
    mgr.settle (resolveAttach ctx token autoEnable contract)
  | .detach => mgr.settle (resolveDetach ctx)
  | .refresh =>
    let contract ← match a.contract with
      | some record => mgr.contracts record.token
      | none => pure none
    mgr.settle (resolveRefresh ctx contract)
  | .autoAttach options =>
    match ← mgr.settle (AutoAttach.arrive ctx (← mgr.instanceToken)) with
    | .inl r => return r
    | .inr arrival =>
      let contract ← mgr.contracts arrival.token.token
      mgr.settle (AutoAttach.enrol ctx options arrival contract)

def log (mgr : Manager m) (op : Operation) (r : Report) : ExceptT Fault m Unit := do
  match mgr.nextEvent with
  | some nextEvent =>
    let now ← mgr.now
    mgr.storage.log ⟨← nextEvent, now, op.action, op.requested, r⟩
  | none => pure ()

def carryOut (mgr : Manager m) (op : Operation) : ExceptT Fault m Performed := do
  let a ← mgr.attachment
  let r ← mgr.resolve op a
  match r.next with
  | some next => mgr.storage.writeAttachment next
  | none => pure ()
  mgr.log op r.report
  return ⟨r.report, r.attachment a⟩

def start (mgr : Manager m) (op : Operation) : ExceptT Fault m Unit :=
  mgr.lock.acquire op.command

def finish (mgr : Manager m) (op : Operation) : ExceptT Fault m Performed :=
  mgr.lock.thenRelease (mgr.carryOut op)

def perform (mgr : Manager m) (op : Operation) : ExceptT Fault m Performed := do
  mgr.start op
  mgr.finish op

/-- Performs operations of which each is started before any has come to its end. -/
def overlap (mgr : Manager m) (ops : List Operation) : m (List (Except Fault Performed)) := do
  let started ← ops.mapM fun op => (mgr.start op).run
  (ops.zip started).mapM fun s =>
    match s.2 with
    | .ok () => (mgr.finish s.1).run
    | .error e => pure (.error e)

end Manager

end Subscription
