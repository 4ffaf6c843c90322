import Subscription.Proofs.Manager.InMemory
import Subscription.Proofs.Manager.OnDisk

/-!
Runs of managers, in memory and on the files of a machine. What is stored after every operation is the
attachment that its resolution ended with, or the one before where the operation broke off; so a run comes
to what the resolutions come to one after the other, from what is stored at first. It does not matter what
that is, nor where.
-/

namespace Subscription

/-- After every operation of a run there is the attachment that came of it, or the one before it where
nothing came of it. -/
def Follows (a : Attachment) : List (Except Fault Performed × Except Fault Attachment) → Prop
  | [] => True
  | (result, found) :: rest =>
    let next := match result with
      | .ok performed => performed.attachment
      | .error _ => a
    found = .ok next ∧ Follows next rest

theorem follows_stepAll (steps : List ((Embedded.World × Operation) × Except Fault Unit))
    (a : Attachment) (past : List Call) : Follows a (Embedded.World.stepAll steps a past) := by
  induction steps generalizing a past with
  | nil => trivial
  | cons step steps ih =>
    obtain ⟨⟨w, op⟩, gate⟩ := step
    rw [Embedded.World.stepAll]
    rcases w.step_cases op gate a past with ⟨f, -, h⟩ | ⟨f, past', -, -, h⟩ | ⟨r, past', -, -, h⟩
    all_goals
      rw [h]
      exact ⟨rfl, ih _ _⟩

/-- A run comes to what the resolutions come to one after the other, with a gate before each that stands
for the lock. The gates are open when nobody else has a claim to the lock. -/
def Refines (results : List (Except Fault Performed × Except Fault Attachment))
    (steps : List (Embedded.World × Operation)) (a : Attachment) (past : List Call) (alone : Prop) :
    Prop :=
  Follows a results ∧ ∃ gates : List (Except Fault Unit), gates.length = steps.length ∧
    (alone → gates = List.replicate steps.length (.ok ())) ∧
    results = Embedded.World.stepAll (steps.zip gates) a past

theorem refines_runAll {σ : Type} {mgr : Embedded.World → Manager (StateM σ)} {v : Manager.View σ}
    {alone : Prop} (serves : ∀ w, (mgr w).Serves w v alone)
    (steps : List (Embedded.World × Operation)) {s : σ} (hs : v.idle s) :
    Refines (Manager.runAll mgr steps s) steps (v.attachment s) (v.calls s) alone := by
  obtain ⟨gates, hlength, hopen, hrun⟩ := Manager.runAll_eq serves steps hs
  refine ⟨hrun ▸ follows_stepAll _ _ _, gates, hlength, fun halone => ?_, hrun⟩
  exact List.eq_replicate_iff.mpr ⟨hlength, hopen halone⟩

/-- Whatever is stored to begin with, a run of operations comes to what their resolutions come to, in
memory as well as on a machine whose attachment and log can be read and written. -/
theorem runAll_refines (newName : String) {home : String} {m : Machine}
    (usable : Machine.Usable home m.tree) (e : Embedded)
    (steps : List (Embedded.World × Operation)) :
    Refines (Manager.runAll Embedded.manager steps e) steps
        (.ofStored ((Memory.lookup e.memory.values Storage.attachmentName).bind Json.parse)) e.calls
        (e.holder = none) ∧
      Refines (Manager.runAll (Machine.manager newName home) steps m) steps
        (.ofStored ((m.stored home).bind Json.parse)) m.calls
        (m.tree.Leads (Path.fromRoot home) ∧ m.tree.find? (FileLock.place home) = none ∧
          m.intruder = none) :=
  ⟨refines_runAll (fun w => Embedded.serves_manager w _) steps id,
    refines_runAll (fun w => Machine.serves_manager w _) steps ⟨usable, id⟩⟩

def pairSteps : List (Embedded.World × Operation) :=
  [(Embedded.pairWorld, .attach "t" true), (Embedded.pairWorld, .change .enable ["a"] true false)]

theorem runAll_refines_pair :
    Machine.Usable "/pro" Machine.broken.tree ∧
      Refines (Manager.runAll Embedded.manager pairSteps Embedded.empty) pairSteps .unattached [] True ∧
      Refines (Manager.runAll (Machine.manager "event" "/pro") pairSteps Machine.broken) pairSteps
        .unattached [] True := by
  obtain ⟨hmemory, hdisk⟩ := runAll_refines "event" Machine.usable_broken .empty pairSteps
  rw [Machine.stored_broken, eq_true Machine.alone_broken] at hdisk
  rw [eq_true (show Embedded.empty.holder = none from rfl)] at hmemory
  exact ⟨Machine.usable_broken, hmemory, hdisk⟩

end Subscription
