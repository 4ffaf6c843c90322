import Subscription.Json.Basic
import Subscription.Operation.Message

/-!
Reports: what an operation did, in a form that people and programs can read. An entry of a report
concerns either the whole operation or one service.
-/

namespace Subscription

inductive Scope where
  | system
  | service
deriving DecidableEq

def Scope.name : Scope → Text
  | .system => "system"
  | .service => "service"

structure Entry where
  message : Text
  code : Text
  service : Option Text
  scope : Scope
deriving DecidableEq

def Entry.ofSystem (m : Message) : Entry :=
  ⟨m.text, m.code, none, .system⟩

def Entry.ofService (service : Text) (m : Message) : Entry :=
  ⟨m.text, m.code, some service, .service⟩

def Entry.toJson (e : Entry) : Json :=
  .object [("message", .string e.message), ("message_code", .string e.code),
    ("service", .ofString? e.service), ("type", .string e.scope.name)]

inductive Verdict where
  | success
  | failure
deriving DecidableEq

def Verdict.name : Verdict → Text
  | .success => "success"
  | .failure => "failure"

structure Report where
  verdict : Verdict
  processed : List Text
  failed : List Text
  errors : List Entry
  warnings : List Entry
  needsReboot : Bool
deriving DecidableEq

def schemaVersion : Text :=
  "0.1"

def Report.toJson (r : Report) : Json :=
  .object [("_schema_version", .string schemaVersion), ("result", .string r.verdict.name),
    ("processed_services", .ofStrings r.processed), ("failed_services", .ofStrings r.failed),
    ("errors", .array (r.errors.map Entry.toJson)),
    ("warnings", .array (r.warnings.map Entry.toJson)), ("needs_reboot", .bool r.needsReboot)]

end Subscription
