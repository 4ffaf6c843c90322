import Subscription.Operation.Action
import Subscription.Resolution.AutoAttach

/-!
The operations that change a machine, with all that they are given.
-/

namespace Subscription

inductive Operation where
  | change (action : ServiceAction) (names : List Text) (assumeYes allowBeta : Bool)
  | attach (token : Text) (autoEnable : Bool)
  | autoAttach (options : AutoAttachOptions)
  | detach
  | refresh

namespace Operation

def action : Operation → Action
  | .change action .. => action.toAction
  | .attach .. => .attach
  | .autoAttach _ => .autoAttach
  | .detach => .detach
  | .refresh => .refresh

def requested : Operation → List Text
  | .change _ names _ _ => names
  | .autoAttach options => options.enable ++ options.enableBeta
  | .attach .. | .detach | .refresh => []

def command (op : Operation) : Text :=
  "pro " ++ op.action.name

end Operation

end Subscription
