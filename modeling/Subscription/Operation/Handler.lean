import Subscription.Catalog.Service
import Subscription.Operation.Action
import Subscription.Operation.Message

/-!
Handlers: what carries out the work on a single service. A handler answers a call in the light of
all calls made to it before, so that any behaviour over time can be described.
-/

namespace Subscription

structure Call where
  action : ServiceAction
  service : Service
  series : Text
  assumeYes : Bool

structure Notice where
  message : Text
  code : Text

/-- How a handler answers a call. -/
inductive Reply where
  | done (needsReboot : Bool) (notices : List Notice)
  | failed (message code : Text)
  | raised (text : Text)

/-- What carries out the work on a service, given the earlier calls, oldest first. -/
structure Handler where
  respond : List Call → Call → Reply

namespace Handler

def plain (c : Call) : Reply :=
  .done (match c.action with
    | .enable => c.service.rebootOnEnable
    | .disable => false) []

/-- The handler of a real machine. It refuses to enable what cannot run in a container when the
machine is one. -/
def system (inContainer : Bool) : Handler where
  respond _ c :=
    match c.action with
    | .disable => plain c
    | .enable =>
      if inContainer && !c.service.containerSupported then
        let m := Message.unsupportedInContainer c.service.title
        .failed m.text m.code
      else plain c

/-- A handler that goes through a list of answers for each action on each service, and answers
plainly once the list is used up. -/
def scripted (script : ServiceAction → Text → List Reply) : Handler where
  respond past c :=
    let earlier := past.filter fun p => p.action = c.action && p.service.name = c.service.name
    ((script c.action c.service.name)[earlier.length]?).getD (plain c)

end Handler

end Subscription
