import Subscription.Text.Basic

/-!
The description of one optional service: how it is presented, where it can run, and which other
services it needs.
-/

namespace Subscription

structure Service where
  name : Text
  title : Text
  description : Text
  helpText : Text
  /-- For each release series that is mentioned, whether the service can be enabled on it. -/
  availability : List (Text × Bool)
  isBeta : Bool
  enableByDefault : Bool
  requiredServices : List Text
  rebootOnEnable : Bool
  containerSupported : Bool
deriving DecidableEq

namespace Service

/-- Whether the service can be enabled on a release series. A series that is not mentioned is
one it cannot run on. -/
def availableOn (s : Service) (series : Text) : Bool :=
  (s.availability.find? (·.1 = series)).any (·.2)

def requires (s : Service) (name : Text) : Bool :=
  decide (name ∈ s.requiredServices)

end Service

end Subscription
