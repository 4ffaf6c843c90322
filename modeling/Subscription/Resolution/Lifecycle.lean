import Subscription.Resolution.Basic

/-!
Attaching, detaching and refreshing. Attaching enables the default services that the contract
grants. Detaching disables everything, dependents first, and ends unattached even if a service
resists. Refreshing takes over a new contract and disables what it no longer grants.
-/

namespace Subscription

def Context.freshAttachment (ctx : Context) (contract : Contract) (token : Text)
    (instanceId : Option Text) : Attachment :=
  ⟨true, contract.entitlements, [], some ⟨contract.name, token, ctx.now, instanceId⟩⟩

def Executor.enableDefaults (x : Executor.Setting) : Executor.Run Unit :=
  changeAll x .enable <| x.catalog.enableOrder <| x.catalog.defaults.filter fun n =>
    decide (n ∈ x.entitlements) && x.catalog.isAvailable n x.series

def resolveAttach (ctx : Context) (token : Text) (autoEnable : Bool)
    (contract : Option Contract) : Resolving Resolution :=
  match LifecycleAction.attach.obstacle? ctx.state, contract with
  | some m, _ => return .blocked m
  | none, none => return .blocked .invalidToken
  | none, some contract => do
    let a := ctx.freshAttachment contract token none
    let done ← ctx.session a true fun x =>
      if autoEnable then Executor.enableDefaults x else pure ()
    return ⟨done.tally.report, some (a.after done)⟩

def resolveDetach (ctx : Context) : Resolving Resolution :=
  match LifecycleAction.detach.obstacle? ctx.state with
  | some m => return .blocked m
  | none => do
    let names := ctx.catalog.disableOrder (ctx.state.enabled.filter ctx.catalog.has)
    let done ← ctx.session ctx.state true (Executor.changeAll · .disable names)
    return ⟨done.tally.report, some .unattached⟩

/-- Disables services that are no longer granted, each with a warning. A service that went down
along with an earlier one is passed over. -/
def Executor.revokeAll (x : Executor.Setting) : List Text → Executor.Run Unit
  | [] => pure ()
  | n :: ns => do
    let p ← get
    match x.catalog.find? n, decide (n ∈ p.enabled) with
    | some s, true =>
      record (·.addWarning (.ofService n (.noLongerEntitled s.title)))
      change x .disable n
    | _, _ => pure ()
    revokeAll x ns

def resolveRefresh (ctx : Context) (contract : Option Contract) : Resolving Resolution :=
  match LifecycleAction.refresh.obstacle? ctx.state, contract with
  | some m, _ => return .blocked m
  | none, none => return .blocked .refreshFailed
  | none, some contract => do
    let lost := ctx.state.enabled.filter fun n =>
      ctx.catalog.has n && !decide (n ∈ contract.entitlements)
    let done ← ctx.session ctx.state true (Executor.revokeAll · (ctx.catalog.disableOrder lost))
    return ⟨done.tally.report, some { ctx.state.after done with
      entitlements := contract.entitlements
      contract := ctx.state.contract.map fun r => { r with name := contract.name } }⟩

end Subscription
