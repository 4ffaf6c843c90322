import Subscription.Catalog.Order
import Subscription.Operation.Handler
import Subscription.Operation.Request
import Subscription.Operation.Tally

/-!
Enabling and disabling services one after the other. A failure counts against the name that was
asked for, and the next name is dealt with all the same.

Before the handler is called, enabling checks that the service is granted, that it can run on the
series, that it is not enabled yet, and that what it requires is enabled; disabling checks that the
service is enabled and that nothing enabled requires it. With `assumeYes` the services in the way
are changed first, each of them with the same checks.
-/

namespace Subscription

namespace Executor

/-- What stays the same while services are changed. -/
structure Setting where
  catalog : Catalog
  handler : Handler
  series : Text
  assumeYes : Bool
  entitlements : List Text

/-- What has come of it so far. -/
structure Progress where
  /-- Every call the handler has had, also before this run, oldest first. -/
  calls : List Call
  /-- The enabled services in the order in which they were enabled. -/
  enabled : List Text
  /-- The services that were enabled or disabled in this run. -/
  changed : List Text
  /-- The requested names whose last failure came from the handler. -/
  handlerFailed : List Text
  tally : Tally

/-- A step that can break off; what came of it up to then is kept. -/
abbrev Run :=
  ExceptT Fault (StateM Progress)

def record (f : Tally → Tally) : Run Unit :=
  modify fun p => { p with tally := f p.tally }

def definition (x : Setting) (name : Text) : Run Service :=
  match x.catalog.find? name with
  | some s => pure s
  | none => throw (.notInCatalog name)

/-- The first failure that a step reports on the names in turn; later names are left alone. -/
def firstFailure (step : Text → Run (Option Entry)) : List Text → Run (Option Entry)
  | [] => pure none
  | n :: ns => do
    match ← step n with
    | some e => pure (some e)
    | none => firstFailure step ns

def applyChange (action : ServiceAction) (name : Text) (enabled : List Text) : List Text :=
  match action with
  | .enable => enabled ++ [name]
  | .disable => enabled.erase name

/-- Has the handler change a service, and takes its answer into account. A failure counts against
`requestedBy`. -/
def invoke (x : Setting) (action : ServiceAction) (s : Service) (requestedBy : Text) :
    Run (Option Entry) := do
  let p ← get
  let call : Call := ⟨action, s, x.series, x.assumeYes⟩
  let reply := x.handler.respond p.calls call
  modify fun p => { p with calls := p.calls ++ [call] }
  match reply with
  | .raised text => throw (.raised text)
  | .failed message code =>
    modify fun p => { p with handlerFailed := p.handlerFailed ++ [requestedBy] }
    return some ⟨message, code, some requestedBy, .service⟩
  | .done needsReboot notices =>
    if needsReboot then record Tally.requireReboot
    record fun t => notices.foldl
      (fun t n => t.addWarning ⟨n.message, n.code, some s.name, .service⟩) t
    modify fun p => { p with
      enabled := applyChange action s.name p.enabled
      changed := p.changed ++ [s.name] }
    return none

/-- Enables a service, and first what it requires. -/
def enableService (x : Setting) : Nat → Service → Text → Run (Option Entry)
  | 0, _, _ => throw .endless
  | fuel + 1, s, requestedBy => do
    let enabled := (← get).enabled
    let refuse (m : Message) : Run (Option Entry) := pure (some (.ofService requestedBy m))
    if s.name ∉ x.entitlements then refuse (.notEntitled s.title)
    else if !x.catalog.isAvailable s.name x.series then refuse (.notAvailable s.title x.series)
    else if s.name ∈ enabled then refuse (.alreadyEnabled s.title)
    else
      -- The list stays as it is here, whatever enabling its first services brings along.
      let missing := x.catalog.enableOrder (s.requiredServices.filter (· ∉ enabled))
      match missing.head?, x.assumeYes with
      | some first, false => refuse (.requiredDisabled s.title (← definition x first).title)
      | _, _ =>
        let failure ← firstFailure (fun n => do
          let required ← definition x n
          record (·.addWarning (.ofService requestedBy (.enablingRequired required.title)))
          enableService x fuel required requestedBy) missing
        match failure with
        | some e => pure (some e)
        | none => invoke x .enable s requestedBy

/-- Disables a service, and first what requires it. -/
def disableService (x : Setting) : Nat → Service → Text → Run (Option Entry)
  | 0, _, _ => throw .endless
  | fuel + 1, s, requestedBy => do
    let enabled := (← get).enabled
    let refuse (m : Message) : Run (Option Entry) := pure (some (.ofService requestedBy m))
    if s.name ∉ enabled then refuse (.alreadyDisabled s.title)
    else
      -- This list is not looked at again either.
      let dependents := x.catalog.disableOrder
        ((x.catalog.dependentsOf s.name).filter (· ∈ enabled))
      match dependents.head?, x.assumeYes with
      | some first, false => refuse (.dependentEnabled s.title (← definition x first).title)
      | _, _ =>
        let failure ← firstFailure (fun n => do
          let dependent ← definition x n
          record (·.addWarning (.ofService requestedBy (.disablingDependent dependent.title)))
          disableService x fuel dependent requestedBy) dependents
        match failure with
        | some e => pure (some e)
        | none => invoke x .disable s requestedBy

/-- A depth that only a circle of services exceeds: between two visits to one service on the way
down, a service has been enabled or disabled for good. -/
def depthBound (x : Setting) (p : Progress) : Nat :=
  let n := x.catalog.services.length + 1
  n * (n + p.enabled.length)

/-- Changes one requested service and records what came of it. A service that was already changed
on behalf of an earlier name counts as done. -/
def change (x : Setting) (action : ServiceAction) (name : Text) : Run Unit := do
  -- Only the last failure of a name counts.
  modify fun p => { p with handlerFailed := p.handlerFailed.filter (· ≠ name) }
  let p ← get
  let isThere := decide (name ∈ p.enabled)
  if decide (name ∈ p.changed) && isThere == decide (action = .enable) then
    record (·.succeed name)
  else
    let s ← definition x name
    let failure ← match action with
      | .enable => enableService x (depthBound x p) s name
      | .disable => disableService x (depthBound x p) s name
    match failure with
    | none => record (·.succeed name)
    | some e => record (·.fail name e)

def changeAll (x : Setting) (action : ServiceAction) : List Text → Run Unit
  | [] => pure ()
  | n :: ns => do
    change x action n
    changeAll x action ns

/-- Changes the known services in turn; the unknown names are reported together at the end. -/
def runBatch (x : Setting) (action : ServiceAction) (p : Partition) : Run Unit := do
  changeAll x action p.known
  if !p.unknown.isEmpty then
    record (·.addError (.ofSystem (.unknownServices action.name p.unknown)))

def start (calls : List Call) (enabled : List Text) : Progress :=
  ⟨calls, enabled, [], [], Tally.empty⟩

end Executor

end Subscription
