/-!
The operations that change a machine, and their names in commands, messages and logs.
-/

namespace Subscription

inductive ServiceAction where
  | enable
  | disable
deriving DecidableEq

inductive Action where
  | enable
  | disable
  | attach
  | autoAttach
  | detach
  | refresh
deriving DecidableEq

def ServiceAction.name : ServiceAction → String
  | .enable => "enable"
  | .disable => "disable"

def Action.name : Action → String
  | .enable => "enable"
  | .disable => "disable"
  | .attach => "attach"
  | .autoAttach => "auto-attach"
  | .detach => "detach"
  | .refresh => "refresh"

def ServiceAction.toAction : ServiceAction → Action
  | .enable => .enable
  | .disable => .disable

end Subscription
