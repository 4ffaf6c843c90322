import Subscription.Json.Basic

/-!
The attachment of a machine to a subscription: all that is kept from one run of the program to the
next. Its stored form is not trusted; anything that is not an attachment counts as none. The fields
of a contract may be stored in any order.
-/

namespace Subscription

structure ContractRecord where
  name : Text
  token : Text
  attachedAt : Text
  instanceId : Option Text
deriving DecidableEq

/-- The attachment of a machine. The enabled services are in the order in which they were
enabled. -/
structure Attachment where
  attached : Bool
  entitlements : List Text
  enabled : List Text
  contract : Option ContractRecord
deriving DecidableEq

/-- What a token stands for: a contract and the services it grants. -/
structure Contract where
  name : Text
  entitlements : List Text
deriving DecidableEq

structure InstanceToken where
  instanceId : Text
  token : Text
deriving DecidableEq

namespace ContractRecord

inductive Field where
  | name
  | token
  | attachedAt
  | instanceId
deriving DecidableEq

def Field.key : Field → Text
  | .name => "name"
  | .token => "token"
  | .attachedAt => "attached_at"
  | .instanceId => "instance_id"

def Field.all : List Field :=
  [.name, .token, .attachedAt, .instanceId]

def text? (r : ContractRecord) : Field → Option Text
  | .name => some r.name
  | .token => some r.token
  | .attachedAt => some r.attachedAt
  | .instanceId => r.instanceId

def toJson (order : List Field) (r : ContractRecord) : Json :=
  .object (order.filterMap fun f => (r.text? f).map fun text => (f.key, .string text))

/-- The record that a value holds; an instance that is not named by a text is left out. -/
def ofJson? (v : Json) : Option ContractRecord := do
  let name ← (v.get? "name").bind Json.string?
  let token ← (v.get? "token").bind Json.string?
  let attachedAt ← (v.get? "attached_at").bind Json.string?
  return ⟨name, token, attachedAt, (v.get? "instance_id").bind Json.string?⟩

end ContractRecord

namespace Attachment

def unattached : Attachment :=
  ⟨false, [], [], none⟩

def contractName (a : Attachment) : Text :=
  (a.contract.map (·.name)).getD ""

def toJsonBy (order : List ContractRecord.Field) (a : Attachment) : Json :=
  .object [("attached", .bool a.attached), ("entitlements", .ofStrings a.entitlements),
    ("enabled_services", .ofStrings a.enabled),
    ("contract", (a.contract.map (ContractRecord.toJson order)).getD .null)]

def toJson (a : Attachment) : Json :=
  a.toJsonBy ContractRecord.Field.all

/-- The contract that a value holds: null stands for none. -/
def readContract? : Json → Option (Option ContractRecord)
  | .null => some none
  | v => (ContractRecord.ofJson? v).map some

def ofJson? (v : Json) : Option Attachment := do
  let attached ← (v.get? "attached").bind Json.bool?
  let entitlements ← (v.get? "entitlements").bind Json.strings?
  let enabled ← (v.get? "enabled_services").bind Json.strings?
  let contract ← (v.get? "contract").bind readContract?
  return ⟨attached, entitlements, enabled, contract⟩

def ofStored (stored : Option Json) : Attachment :=
  (stored.bind ofJson?).getD unattached

end Attachment

end Subscription
