import Subscription.Catalog.Document
import Subscription.Files.Error
import Subscription.Operation.Action
import Subscription.Operation.Message

/-!
Faults: what ends a run before there is a result to report. Those with a code are meant for the
operator; the others show that something around the program is out of order.
-/

namespace Subscription

structure LockHolder where
  pid : Number
  command : Text
  acquiredAt : Text

/-- What ends an operation without a result. -/
inductive Fault where
  /-- A refusal that brings its own code and text. -/
  | refused (code text : Text)
  /-- A request that cannot be resolved at all. -/
  | badRequest (code text : Text)
  | notRoot
  | noHelp (name : Text)
  | lockHeld (request : Text) (holder : LockHolder)
  | invalidCatalog (findings : List Catalog.Finding)
  | duplicateService (name : Text)
  | notInCatalog (name : Text)
  | noSeries (path : Text)
  /-- Something the program relies on failed with a text of its own. -/
  | raised (text : Text)
  /-- A file does not hold data in written form. -/
  | malformed
  | file (error : FileError)
  /-- The services require each other in a circle that is never closed. -/
  | endless

namespace Fault

def noServiceNames (action : ServiceAction) : Fault :=
  let m := Message.noServiceNames action.name
  .badRequest m.code m.text

def message? : Fault → Option Message
  | .notRoot => some .notRoot
  | .noHelp name => some (.noHelp name)
  | .lockHeld request holder => some (.lockHeld request holder.command holder.pid)
  | _ => none

def code? : Fault → Option Text
  | .refused code _ => some code
  | .badRequest code _ => some code
  | .invalidCatalog _ => some "invalid-service-catalog"
  | f => f.message?.map (·.code)

def findingLine (f : Catalog.Finding) : Text :=
  "  " ++ f.context.getD "(root)" ++ ": " ++ f.message

def text? : Fault → Option Text
  | .refused _ text => some text
  | .badRequest _ text => some text
  | .invalidCatalog findings =>
    some ("Service catalog is invalid:\n" ++ Text.intercalate "\n" (findings.map findingLine))
  | .duplicateService name =>
    some ("Service already defined: " ++ name ++ ". Duplicate names are not permitted.")
  | .notInCatalog name => some ("Service not in catalog: " ++ name)
  | .noSeries path => some ("Unable to determine the release series from " ++ path)
  | .raised text => some text
  | .malformed | .file _ | .endless => none
  | f => f.message?.map (·.text)

end Fault

end Subscription
