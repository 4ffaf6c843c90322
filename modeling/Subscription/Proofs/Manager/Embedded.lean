import Subscription.Manager.Embedded
import Subscription.Proofs.Catalog.Accepted
import Subscription.Proofs.Manager.Persistence
import Subscription.Proofs.Storage.Attachment

/-!
Managers that work in memory. They persist attachments, since what memory holds is read back as it was
written.
-/

namespace Subscription.Embedded

def attachment (e : Embedded) : Attachment :=
  .ofStored (e.memory.read Storage.attachmentName)

theorem attachment_write (e : Embedded) (a : Attachment) :
    attachment { e with memory := e.memory.write Storage.attachmentName a.toJson } = a := by
  rw [attachment, Memory.read_write_self]
  exact a.ofStored_parse (by decide) fun f => by cases f <;> decide

theorem exec_attachment (w : World) (e : Embedded) :
    exec (manager w : Manager (StateM Embedded)).attachment e = (.ok e.attachment, e) := rfl

theorem exec_writeAttachment (w : World) (a : Attachment) (e : Embedded) :
    exec ((manager w : Manager (StateM Embedded)).storage.writeAttachment a) e =
      (.ok (), { e with memory := e.memory.write Storage.attachmentName a.toJson }) := rfl

/-- A manager in memory stores attachments, and changes them in no other way. -/
theorem persists_manager (w : World) :
    (manager w : Manager (StateM Embedded)).Persists attachment where
  reads h := by
    rw [exec_attachment] at h
    cases h
    exact ⟨rfl, rfl⟩
  readFails h := by
    rw [exec_attachment] at h
    cases h
  writes h := by
    rw [exec_writeAttachment] at h
    cases h
    exact attachment_write _ _
  writeFails h := by
    rw [exec_writeAttachment] at h
    cases h
  calls _ := rfl
  recorded _ _ := rfl
  acquire command := by
    refine keeps_bind (keeps_lift fun _ => rfl) fun holder => ?_
    cases holder with
    | none => exact keeps_bind (keeps_lift fun _ => rfl) fun _ => keeps_lift fun _ => rfl
    | some holder => exact fun _ => rfl
  release _ := rfl
  contracts _ _ := rfl
  instanceToken _ := rfl
  now _ := rfl
  logs op r := by
    unfold Manager.log
    split
    · next nextEvent hlogged =>
      have hevent : ∀ e, attachment (nextEvent.run e).2 = attachment e := by
        simp only [manager] at hlogged
        split at hlogged
        · cases hlogged
          exact fun _ => rfl
        · cases hlogged
      exact keeps_bind (keeps_lift fun _ => rfl) fun _ => keeps_bind (keeps_lift hevent) fun _ _ => rfl
    · exact keeps_pure ()

/-- A world with the two services of `pair`, in which every token is good for both of them. -/
def pairWorld : World where
  catalog := .pair
  series := "jammy"
  allowBeta := false
  handler := .system false
  contracts _ := .ok (some ⟨"k", ["a", "b"]⟩)
  instanceToken := .ok none
  logged := true
  pid := 1
  now := "2026-01-01T00:00:00.000Z"

end Subscription.Embedded
