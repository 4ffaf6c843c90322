import Subscription.Proofs.Executor.Session

/-!
Consistent lists of enabled services. The checks before a call to the handler are what keeps a list
consistent: a service is enabled after all that it requires, and disabled after all that requires it.
So every step of a change preserves consistency, and whole sessions do, wherever they stop.
-/

namespace Subscription

/-- Each enabled service stands once in the list, can run on the series, and has all that it requires
enabled with it. -/
structure Catalog.Consistent (c : Catalog) (series : Text) (enabled : List Text) : Prop where
  nodup : enabled.Nodup
  known : ∀ n ∈ enabled, c.has n
  available : ∀ n ∈ enabled, c.isAvailable n series = true
  closed : ∀ n ∈ enabled, ∀ r ∈ c.requirementsOf n, r ∈ enabled

theorem Catalog.consistent_nil (c : Catalog) (series : Text) : c.Consistent series [] :=
  ⟨.nil, by simp, by simp, by simp⟩

namespace Executor

variable {x : Setting} {action : ServiceAction} {scope : Text → Prop} {who : Text}
  {p q : Progress}

theorem consistent_enable {s : Service} (ready : Ready x .enable s p.enabled)
    (h : x.catalog.Consistent x.series p.enabled) :
    x.catalog.Consistent x.series (p.enabled ++ [s.name]) := by
  have havailable := (obstacle?_enable_eq_none_iff.mp
    (refusal?_eq_none_iff.mp ready.accepted).1).2
  have hclear : ∀ r ∈ x.catalog.requirementsOf s.name, r ∈ p.enabled := fun r hr => by
    simpa [pending] using ready.clear r hr
  refine ⟨nodup_applyChange h.nodup ready.pending, fun n hn => ?_, fun n hn => ?_,
    fun n hn r hr => List.mem_append_left _ ?_⟩
  all_goals rcases List.mem_append.mp hn with hn | hn
  · exact h.known n hn
  · rw [List.mem_singleton.mp hn]
    exact Catalog.has_of_find? ready.known
  · exact h.available n hn
  · rw [List.mem_singleton.mp hn]
    exact havailable
  · exact h.closed n hn r hr
  · rw [List.mem_singleton.mp hn] at hr
    exact hclear r hr

theorem consistent_disable {s : Service} (ready : Ready x .disable s p.enabled)
    (h : x.catalog.Consistent x.series p.enabled) :
    x.catalog.Consistent x.series (p.enabled.erase s.name) := by
  have hmem : ∀ n ∈ p.enabled.erase s.name, n ∈ p.enabled := fun n hn => List.mem_of_mem_erase hn
  refine ⟨h.nodup.erase s.name, fun n hn => h.known n (hmem n hn),
    fun n hn => h.available n (hmem n hn), fun n hn r hr => ?_⟩
  have hne : r ≠ s.name := by
    rintro rfl
    have hgone := ready.clear n (Catalog.mem_dependentsOf.mpr hr)
    simp [pending, hmem n hn] at hgone
  exact (List.mem_erase_of_ne hne).mpr (h.closed n (hmem n hn) r hr)

theorem Step.consistent (h : Step x action scope who p q)
    (hp : x.catalog.Consistent x.series p.enabled) : x.catalog.Consistent x.series q.enabled := by
  cases h with
  | warned | raised | refused => exact hp
  | changed ready _ _ =>
    cases action with
    | enable => exact consistent_enable ready hp
    | disable => exact consistent_disable ready hp

theorem Moves.consistent (h : Moves x action p q)
    (hp : x.catalog.Consistent x.series p.enabled) : x.catalog.Consistent x.series q.enabled := by
  induction h with
  | refl => exact hp
  | tail _ hmove ih =>
    cases hmove with
    | step hstep => exact hstep.consistent ih
    | noted _ enabled _ =>
      rw [enabled]
      exact ih

end Executor

end Subscription
