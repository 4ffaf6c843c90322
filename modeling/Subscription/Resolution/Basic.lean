import Subscription.Operation.Executor

/-!
Resolutions: from a request and the state of the machine to a report and the next state. A
resolution reads and writes nothing; its only effect on the world is the calls it makes to the
handler, which are added to those made before.
-/

namespace Subscription

/-- The outcome of an operation. Without a next attachment the one before it stands. -/
structure Resolution where
  report : Report
  next : Option Attachment

def Resolution.attachment (r : Resolution) (before : Attachment) : Attachment :=
  r.next.getD before

def Resolution.blocked (m : Message) : Resolution :=
  ⟨.blocked (.ofSystem m), none⟩

structure Context where
  catalog : Catalog
  handler : Handler
  series : Text
  now : Text
  state : Attachment

/-- A computation that adds to the calls made to the handler, whether it succeeds or not. -/
abbrev Resolving :=
  ExceptT Fault (StateM (List Call))

namespace Context

def setting (ctx : Context) (a : Attachment) (assumeYes : Bool) : Executor.Setting :=
  ⟨ctx.catalog, ctx.handler, ctx.series, assumeYes, a.entitlements⟩

/-- Changes services on a machine with the given attachment. -/
def session (ctx : Context) (a : Attachment) (assumeYes : Bool)
    (body : Executor.Setting → Executor.Run Unit) : Resolving Executor.Progress :=
  ExceptT.mk fun past =>
    let (result, p) := (body (ctx.setting a assumeYes)).run.run (Executor.start past a.enabled)
    (result.map fun _ => p, p.calls)

end Context

def Attachment.after (a : Attachment) (p : Executor.Progress) : Attachment :=
  { a with enabled := p.enabled }

def resolveRequest (ctx : Context) (r : Request) : Resolving Resolution := do
  r.check
  let p := ctx.catalog.partition r.allowBeta (dedupe r.names)
  match p.obstacle? r.action.name ctx.state with
  | some m => return .blocked m
  | none =>
    let done ← ctx.session ctx.state r.assumeYes (Executor.runBatch · r.action p)
    let next := if done.enabled = ctx.state.enabled then none else some (ctx.state.after done)
    return ⟨done.tally.report, next⟩

end Subscription
