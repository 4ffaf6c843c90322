import Subscription.Attachment
import Subscription.Catalog.Basic
import Subscription.Operation.Report
import Subscription.View.Table

/-!
The status of a machine: whether it is attached, and a row for each service of the catalog.
-/

namespace Subscription

inductive ServiceStatus where
  | enabled
  | disabled
  | notApplicable
deriving DecidableEq

def ServiceStatus.name : ServiceStatus → Text
  | .enabled => "enabled"
  | .disabled => "disabled"
  | .notApplicable => "n/a"

structure StatusRow where
  name : Text
  entitled : Bool
  status : ServiceStatus
  available : Bool
  description : Text
deriving DecidableEq

structure Status where
  attached : Bool
  contractName : Option Text
  series : Text
  rows : List StatusRow
deriving DecidableEq

namespace Status

/-- The row of a service. A service that is enabled shows as such whatever the subscription says;
any other can be enabled when it is both granted and available. -/
def row (c : Catalog) (a : Attachment) (series : Text) (s : Service) : StatusRow :=
  let entitled := a.attached && decide (s.name ∈ a.entitlements)
  let available := c.isAvailable s.name series
  let status :=
    if s.name ∈ a.enabled then .enabled
    else if entitled && available then .disabled
    else .notApplicable
  ⟨s.name, entitled, status, available, s.description⟩

def ofAttachment (c : Catalog) (a : Attachment) (series : Text) (includeBeta : Bool) : Status :=
  ⟨a.attached, a.contract.map (·.name), series, (c.list includeBeta).map (row c a series)⟩

end Status

def StatusRow.toJson (r : StatusRow) : Json :=
  .object [("name", .string r.name), ("entitled", .string (View.yesOrNo r.entitled)),
    ("status", .string r.status.name), ("available", .string (View.yesOrNo r.available)),
    ("description", .string r.description)]

def StatusRow.cells (r : StatusRow) : List Text :=
  [r.name, View.yesOrNo r.entitled, r.status.name, View.yesOrNo r.available, r.description]

namespace Status

def toJson (s : Status) : Json :=
  .object [("_schema_version", .string schemaVersion), ("attached", .bool s.attached),
    ("contract_name", .ofString? s.contractName), ("series", .string s.series),
    ("services", .array (s.rows.map StatusRow.toJson))]

def columns : List Text :=
  ["SERVICE", "ENTITLED", "STATUS", "AVAILABLE", "DESCRIPTION"]

def summary (s : Status) : Text :=
  if s.attached then
    let name := s.contractName.getD ""
    "This machine is attached to '" ++ name ++ "'."
  else "This machine is not attached to an Ubuntu Pro subscription."

def lines (s : Status) : List Text :=
  View.tableLines (columns :: s.rows.map StatusRow.cells) ++ [("" : Text), s.summary]

end Status

end Subscription
