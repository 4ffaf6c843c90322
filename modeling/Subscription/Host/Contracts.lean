import Subscription.Attachment
import Subscription.Files.System
import Subscription.Json.Reader

/-!
The files that stand in for the contract server and for the cloud: the contracts that tokens stand
for, and the identity of the instance.
-/

namespace Subscription.Host

variable {m : Type → Type} [Monad m]

def readValue (files : FileSystem m) (path : String) : ExceptT Fault m (Option Json) := do
  match ← files.read path with
  | .error .missing => return none
  | .error e => throw (.file e)
  | .ok text =>
    match Json.parse text with
    | some v => return some v
    | none => throw .malformed

def contract? (entry : Json) : Option Contract := do
  let name ← (entry.get? "contract_name").bind Json.string?
  let entitlements ← (entry.get? "entitlements").bind Json.strings?
  return ⟨name, entitlements⟩

def contractIn? (document : Json) (token : Text) : Option Contract := do
  let tokens ← document.get? "tokens"
  let entry ← tokens.get? token
  contract? entry

def contractFor (files : FileSystem m) (path : String) (token : Text) :
    ExceptT Fault m (Option Contract) := do
  return (← readValue files path).bind (contractIn? · token)

def instanceToken? (document : Json) : Option InstanceToken := do
  let instanceId ← (document.get? "instance_id").bind Json.filledString?
  let token ← (document.get? "token").bind Json.filledString?
  return ⟨instanceId, token⟩

def instanceToken (files : FileSystem m) (path : String) :
    ExceptT Fault m (Option InstanceToken) := do
  return (← readValue files path).bind instanceToken?

end Subscription.Host
