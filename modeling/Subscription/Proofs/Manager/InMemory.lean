import Subscription.Proofs.Manager.Embedded
import Subscription.Proofs.Manager.Simulation

/-!
Managers in memory serve their worlds. What they look up is recorded, which changes neither what is
stored nor the calls; the lock refuses only when it is held.
-/

namespace Subscription.Embedded

/-- What counts in a memory. With nobody else about, the lock is free between operations. -/
def view (alone : Prop) : Manager.View Embedded where
  idle e := alone → e.holder = none
  busy _ := True
  stored e := Memory.lookup e.memory.values Storage.attachmentName
  calls e := e.calls

theorem attachment_view (alone : Prop) (e : Embedded) : (view alone).attachment e = e.attachment :=
  rfl

theorem exec_acquire (w : World) (command : Text) (e : Embedded) :
    exec ((manager w : Manager (StateM Embedded)).lock.acquire command) e =
      match e.holder with
      | some holder => (.error (.lockHeld command holder), e)
      | none => (.ok (), { e with holder := some ⟨w.pid, command, w.now⟩ }) := by
  obtain ⟨memory, holder, calls, lookups⟩ := e
  cases holder <;> rfl

theorem serves_manager (w : World) (alone : Prop) :
    (manager w : Manager (StateM Embedded)).Serves w (view alone) alone where
  catalog := rfl
  series := rfl
  allowBeta := rfl
  handler := rfl
  now := rfl
  acquire {e} he command := by
    have hexec := exec_acquire w command e
    cases hholder : e.holder with
    | none =>
      rw [hholder] at hexec
      exact ⟨{ e with holder := some ⟨w.pid, command, w.now⟩ }, ⟨rfl, rfl⟩, Or.inl ⟨hexec, trivial⟩⟩
    | some holder =>
      rw [hholder] at hexec
      refine ⟨e, ⟨rfl, rfl⟩, Or.inr ⟨fun halone => ?_, _, hexec, he⟩⟩
      cases hholder.symm.trans (he halone)
  release _ := ⟨_, rfl, fun _ => rfl, rfl, rfl⟩
  reads _ := rfl
  writes {e} _ a := ⟨_, rfl, trivial, attachment_write e a, rfl⟩
  contracts _ _ := ⟨_, rfl, trivial, rfl, rfl⟩
  instanceToken _ := ⟨_, rfl, trivial, rfl, rfl⟩
  calls _ := rfl
  recorded _ _ := ⟨trivial, rfl, rfl⟩
  logs {e} _ op r := by
    unfold Manager.log
    simp only [manager]
    cases w.logged with
    | true => exact ⟨_, rfl, trivial, rfl, rfl⟩
    | false => exact ⟨_, rfl, trivial, rfl, rfl⟩

end Subscription.Embedded
