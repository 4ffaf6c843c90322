import Subscription.Attachment
import Subscription.Operation.Record
import Subscription.Storage.Basic

/-!
What is kept in the storage: the attachment of the machine, and the log of its operations.
-/

namespace Subscription.Storage

variable {m : Type → Type} [Monad m]

def attachmentName : String :=
  "attachment.json"

def operationLog : String :=
  "operations.jsonl"

/-- The stored attachment; without one the machine is unattached. -/
def readAttachment (s : Storage m) : ExceptT Fault m Attachment := do
  return Attachment.ofStored (← s.read attachmentName)

def writeAttachmentBy (s : Storage m) (order : List ContractRecord.Field) (a : Attachment) :
    ExceptT Fault m Unit :=
  s.write attachmentName (a.toJsonBy order)

def writeAttachment (s : Storage m) (a : Attachment) : ExceptT Fault m Unit :=
  s.writeAttachmentBy ContractRecord.Field.all a

def log (s : Storage m) (r : OperationRecord) : ExceptT Fault m Unit :=
  s.append operationLog r.line

end Subscription.Storage
