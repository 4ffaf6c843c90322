import Subscription.Json.Printer
import Subscription.Operation.Action
import Subscription.Operation.Report

/-!
The records of the operation log: one for each operation that came to a result. A record holds the
codes of the errors and not their texts.
-/

namespace Subscription

/-- What the log keeps of an operation. -/
structure OperationRecord where
  eventId : Text
  timestamp : Text
  action : Action
  /-- The names as they were given, repetitions included. -/
  requested : List Text
  report : Report

namespace OperationRecord

def toJson (r : OperationRecord) : Json :=
  .object [("event_id", .string r.eventId), ("timestamp", .string r.timestamp),
    ("action", .string r.action.name), ("requested_names", .ofStrings r.requested),
    ("result", .string r.report.verdict.name),
    ("processed_services", .ofStrings r.report.processed),
    ("failed_services", .ofStrings r.report.failed),
    ("message_codes", .ofStrings (r.report.errors.map (·.code))),
    ("needs_reboot", .bool r.report.needsReboot)]

def line (r : OperationRecord) : String :=
  r.toJson.compact

end OperationRecord

end Subscription
