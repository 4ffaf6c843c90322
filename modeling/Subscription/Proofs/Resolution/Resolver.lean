import Subscription.Resolution.AutoAttach

/-!
The five resolutions as one family: what is to be resolved, together with all that was looked up for it.
-/

namespace Subscription

/-- A resolution with all that it is given besides the context. -/
inductive Resolver where
  | request (r : Request)
  | attach (token : Text) (autoEnable : Bool) (contract : Option Contract)
  | detach
  | refresh (contract : Option Contract)
  | autoAttach (opts : AutoAttachOptions) (token : Option InstanceToken)
      (contracts : Text → Except Fault (Option Contract))

def Resolver.run (ctx : Context) : Resolver → Resolving Resolution
  | .request r => resolveRequest ctx r
  | .attach token autoEnable contract => resolveAttach ctx token autoEnable contract
  | .detach => resolveDetach ctx
  | .refresh contract => resolveRefresh ctx contract
  | .autoAttach opts token contracts => resolveAutoAttach ctx opts token contracts

end Subscription
