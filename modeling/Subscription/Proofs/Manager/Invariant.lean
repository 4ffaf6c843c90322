import Subscription.Proofs.Manager.InMemory
import Subscription.Proofs.Manager.OnDisk
import Subscription.Proofs.Resolution.Sound

/-!
What holds of the stored attachment after every operation of a run. A property that resolutions keep in
every world of the run is one of these. Main statement: from nothing stored, attachments are sound at all
times, however the worlds change in which operations are performed.
-/

namespace Subscription

namespace Embedded.World

variable {w : World} {P : Attachment → Prop} {a : Attachment}

theorem invariant_resolving (inv : (w.context a).Invariant P) (ha : P a) (op : Operation) :
    Yields (w.resolving op a) fun r => P (r.attachment a) :=
  yields_bind' fun t => inv.run ha t

theorem invariant_step (inv : (w.context a).Invariant P) (ha : P a) (op : Operation)
    (gate : Except Fault Unit) (past : List Call) : P (w.step op gate a past).2.1 := by
  rcases w.step_cases op gate a past with ⟨f, -, h⟩ | ⟨f, past', -, -, h⟩ | ⟨r, past', -, hexec, h⟩
  all_goals rw [h]
  · exact ha
  · exact ha
  · exact invariant_resolving inv ha op past r past' hexec

theorem invariant_stepAll {steps : List ((World × Operation) × Except Fault Unit)}
    (inv : ∀ s ∈ steps, ∀ a, (s.1.1.context a).Invariant P) (ha : P a) (past : List Call) :
    ∀ result ∈ stepAll steps a past, ∃ b, result.2 = .ok b ∧ P b := by
  induction steps generalizing a past with
  | nil => simp [stepAll]
  | cons s steps ih =>
    obtain ⟨⟨w, op⟩, gate⟩ := s
    have hstep := invariant_step (inv _ List.mem_cons_self a) ha op gate past
    rw [stepAll]
    rcases hresult : w.step op gate a past with ⟨result, b, past'⟩
    rw [hresult] at hstep
    refine List.forall_mem_cons.mpr ⟨⟨b, rfl, hstep⟩, ?_⟩
    exact ih (fun s hs => inv s (List.mem_cons_of_mem _ hs)) hstep past'

end Embedded.World

/-- What resolutions keep in every world of a run holds of whatever is found after its operations. -/
theorem invariant_runAll {σ : Type} {mgr : Embedded.World → Manager (StateM σ)}
    {v : Manager.View σ} {alone : Prop} (serves : ∀ w, (mgr w).Serves w v alone)
    {P : Attachment → Prop} {steps : List (Embedded.World × Operation)}
    (inv : ∀ s ∈ steps, ∀ a, (s.1.context a).Invariant P) {s : σ} (hs : v.idle s)
    (first : P (v.attachment s)) :
    ∀ result ∈ Manager.runAll mgr steps s, ∃ a, result.2 = .ok a ∧ P a := by
  obtain ⟨gates, -, -, hrun⟩ := Manager.runAll_eq serves steps hs
  rw [hrun]
  apply Embedded.World.invariant_stepAll _ first
  intro s hs
  exact inv s.1 (List.of_mem_zip hs).1

namespace Embedded

/-- What becomes of a state when operations are performed one after the other, each in the world of its
time. -/
def performAll (steps : List (World × Operation)) (e : Embedded) : Embedded :=
  steps.foldl (fun e s => (exec ((manager s.1 : Manager (StateM Embedded)).perform s.2) e).2) e

variable {c : Catalog} {series : Text} {steps : List (World × Operation)}

theorem sound_foldl (wf : c.WellFormed)
    (worlds : ∀ s ∈ steps, s.1.catalog = c ∧ s.1.series = series) {e : Embedded}
    (he : e.attachment.Sound c series) : (performAll steps e).attachment.Sound c series := by
  induction steps generalizing e with
  | nil => exact he
  | cons s steps ih =>
    obtain ⟨rfl, rfl⟩ := worlds s List.mem_cons_self
    exact ih (fun s hs => worlds s (List.mem_cons_of_mem _ hs)) ((persists_manager s.1).sound wf he s.2)

/-- From nothing stored, operations lead to sound attachments only, in memory as well as on a machine whose
attachment and log can be read and written. The worlds agree on the catalog and the series; handlers,
contracts and instances may change from one operation to the next. -/
theorem sound_performAll {document : Json} {c : Catalog} {series : Text}
    (accepted : Catalog.ofDocument document = .ok c) (steps : List (World × Operation))
    (worlds : ∀ s ∈ steps, s.1.catalog = c ∧ s.1.series = series) :
    (performAll steps .empty).attachment.Sound c series ∧
      ∀ (newName home : String) (m : Machine), Machine.Usable home m.tree →
        (m.stored home).bind Json.parse = none →
        ∀ result ∈ Manager.runAll (Machine.manager newName home) steps m,
          ∃ a, result.2 = .ok a ∧ a.Sound c series := by
  have wf := Catalog.wellFormed_of_ofDocument accepted
  have first : Attachment.unattached.Sound c series := Attachment.sound_unattached c series
  refine ⟨sound_foldl wf worlds first, fun newName home m usable empty => ?_⟩
  have inv : ∀ s ∈ steps, ∀ a, (s.1.context a).Invariant (Attachment.Sound c series) := by
    intro s hs a
    obtain ⟨rfl, rfl⟩ := worlds s hs
    exact (s.1.context a).invariant_sound wf
  have hfirst : (Machine.view home False).attachment m = .unattached :=
    congrArg Attachment.ofStored empty
  exact invariant_runAll (fun w => Machine.serves_manager w False) inv ⟨usable, False.elim⟩
    (hfirst ▸ first)

/-- Attaching, and enabling `a` with what it requires. -/
theorem sound_performAll_pair :
    (performAll [(pairWorld, .attach "t" true), (pairWorld, .change .enable ["a"] true false)]
      .empty).attachment.Sound .pair "jammy" ∧
    ∀ result ∈ Manager.runAll (Machine.manager "event" "/pro")
        [(pairWorld, .attach "t" true), (pairWorld, .change .enable ["a"] true false)] Machine.broken,
      ∃ a, result.2 = .ok a ∧ a.Sound .pair "jammy" := by
  have worlds : ∀ s ∈ [(pairWorld, Operation.attach "t" true),
      (pairWorld, .change .enable ["a"] true false)],
      s.1.catalog = .pair ∧ s.1.series = "jammy" := by
    intro s hs
    simp only [List.mem_cons, List.not_mem_nil, or_false] at hs
    rcases hs with rfl | rfl
    all_goals exact ⟨rfl, rfl⟩
  obtain ⟨hmemory, hdisk⟩ := sound_performAll Catalog.ofDocument_pair _ worlds
  exact ⟨hmemory, hdisk "event" "/pro" Machine.broken Machine.usable_broken Machine.stored_broken⟩

end Embedded

end Subscription
