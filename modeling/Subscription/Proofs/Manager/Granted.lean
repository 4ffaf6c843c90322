import Subscription.Proofs.Manager.Invariant
import Subscription.Proofs.Resolution.Granted

/-!
Granted services. From nothing stored, and with a handler that disables what it is asked to, every service
that is stored as enabled is stored as granted, however contracts change from one operation to the next.
-/

namespace Subscription

/-- From nothing stored, nothing is ever stored as enabled that is not stored as granted, in memory as
well as on a machine whose attachment and log can be read and written. Required services are listed with
all that they require, and handlers disable what they are asked to; what they do otherwise, and what
contracts and instances there are, may change from one operation to the next. -/
theorem runAll_granted {document : Json} {c : Catalog} {series : Text}
    (accepted : Catalog.ofDocument document = .ok c) (transitive : c.Transitive)
    (steps : List (Embedded.World × Operation))
    (worlds : ∀ s ∈ steps,
      s.1.catalog = c ∧ s.1.series = series ∧ s.1.handler.Obeys .disable) :
    (∀ result ∈ Manager.runAll Embedded.manager steps Embedded.empty,
        ∃ a, result.2 = .ok a ∧ a.Granted) ∧
      ∀ (newName home : String) (m : Machine), Machine.Usable home m.tree →
        (m.stored home).bind Json.parse = none →
        ∀ result ∈ Manager.runAll (Machine.manager newName home) steps m,
          ∃ a, result.2 = .ok a ∧ a.Granted := by
  have inv : ∀ s ∈ steps, ∀ a, (s.1.context a).Invariant fun a => a.Sound c series ∧ a.Granted := by
    intro s hs a
    obtain ⟨rfl, rfl, obeys⟩ := worlds s hs
    exact (s.1.context a).invariant_granted (Catalog.wellFormed_of_ofDocument accepted) transitive obeys
  have first : Attachment.unattached.Sound c series ∧ Attachment.unattached.Granted :=
    ⟨Attachment.sound_unattached c series, by simp [Attachment.Granted, Attachment.unattached]⟩
  refine ⟨fun result hresult => ?_, fun newName home m usable empty result hresult => ?_⟩
  · have hfirst : (Embedded.view False).attachment Embedded.empty = .unattached := rfl
    obtain ⟨a, ha, -, granted⟩ := invariant_runAll (fun w => Embedded.serves_manager w False) inv
      False.elim (hfirst ▸ first) result hresult
    exact ⟨a, ha, granted⟩
  · have hfirst : (Machine.view home False).attachment m = .unattached :=
      congrArg Attachment.ofStored empty
    obtain ⟨a, ha, -, granted⟩ := invariant_runAll (fun w => Machine.serves_manager w False) inv
      ⟨usable, False.elim⟩ (hfirst ▸ first) result hresult
    exact ⟨a, ha, granted⟩

/-- A machine is attached, has `a` enabled with what it requires, and then refreshes under a contract
that grants `a` alone. -/
def lapseSteps : List (Embedded.World × Operation) :=
  [(Embedded.pairWorld, .attach "t" true), (Embedded.pairWorld, .change .enable ["a"] true false),
    ({ Embedded.pairWorld with contracts := fun _ => .ok (some ⟨"k", ["a"]⟩) }, .refresh)]

theorem runAll_granted_lapse :
    (∀ result ∈ Manager.runAll Embedded.manager lapseSteps Embedded.empty,
        ∃ a, result.2 = .ok a ∧ a.Granted) ∧
      ∀ result ∈ Manager.runAll (Machine.manager "event" "/pro") lapseSteps Machine.broken,
        ∃ a, result.2 = .ok a ∧ a.Granted := by
  have worlds : ∀ s ∈ lapseSteps,
      s.1.catalog = .pair ∧ s.1.series = "jammy" ∧ s.1.handler.Obeys .disable := by
    intro s hs
    simp only [lapseSteps, List.mem_cons, List.not_mem_nil, or_false] at hs
    rcases hs with rfl | rfl | rfl
    all_goals exact ⟨rfl, rfl, Handler.obeys_system false⟩
  obtain ⟨hmemory, hdisk⟩ := runAll_granted Catalog.ofDocument_pair (by decide) lapseSteps worlds
  exact ⟨hmemory, hdisk "event" "/pro" Machine.broken Machine.usable_broken Machine.stored_broken⟩

end Subscription
