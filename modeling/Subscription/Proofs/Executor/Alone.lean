import Subscription.Proofs.Executor.Growth
import Subscription.Proofs.Executor.Session

/-!
Changes without consent. Where nothing else may be changed along, a change looks at its own service only:
it is refused, or it stops at the first service in its way, or it is one call for a service that is ready.
So a name whose turn does not fail, and that was not changed before, was ready.
-/

namespace Subscription.Executor

variable {x : Setting} {action : ServiceAction} {who n : Text} {names : List Text} {s : Service}
  {p q : Progress}

/-- How a change goes that may change nothing along. -/
inductive Alone (x : Setting) (action : ServiceAction) (s : Service) (who : Text) (p : Progress) :
    Except Fault (Option Entry) × Progress → Prop
  | refused {m : Message} (h : refusal? x action s p.enabled = some m) :
      Alone x action s who p (.ok (some (.ofService who m)), p)
  | stopped {other : Service} (accepted : refusal? x action s p.enabled = none)
      (known : x.catalog.find? other.name = some other)
      (first : other.name ∈ inTheWay x action s p.enabled) :
      Alone x action s who p
        (.ok (some (.ofService who (conflictMessage action s.title other.title))), p)
  | called (ready : Ready x action s p.enabled) :
      Alone x action s who p (exec (invoke x action s who) p)

theorem alone_changeService (wf : x.catalog.WellFormed) (no : x.assumeYes = false)
    (hs : x.catalog.find? s.name = some s) {fuel : Nat} (hfuel : 0 < fuel) (p : Progress) :
    Alone x action s who p (exec (changeService x action fuel s who) p) := by
  obtain ⟨k, rfl⟩ := Nat.exists_eq_succ_of_ne_zero hfuel.ne'
  rw [exec_changeService hs]
  cases href : refusal? x action s p.enabled with
  | some m => exact .refused href
  | none =>
    simp only [changeAfter, no]
    cases hway : inTheWay x action s p.enabled with
    | nil => exact .called (ready_of_inTheWay_eq_nil hs href hway)
    | cons first others =>
      have hfirst : first ∈ inTheWay x action s p.enabled := hway ▸ List.mem_cons_self
      obtain ⟨other, hother⟩ := Catalog.has_iff.mp (wf.has_of_mem_before (mem_inTheWay.mp hfirst).1)
      obtain rfl := Catalog.name_of_find? hother
      simp only [List.head?_cons, exec_bind, exec_definition hother, exec_pure]
      exact .stopped href hother hfirst

/-- A turn that does not fail was the one call for a service that was ready. -/
theorem ready_of_change (wf : x.catalog.WellFormed) (no : x.assumeYes = false)
    (known : x.catalog.has n) (fresh : n ∉ p.changed)
    (h : exec (change x action n) p = (.ok (), q)) (hn : (n, .failure) ∉ q.tally.outcomes) :
    ∃ s, x.catalog.find? n = some s ∧ Ready x action s p.enabled ∧
      q.enabled = applyChange action n p.enabled ∧ q.changed = p.changed ++ [n] := by
  obtain ⟨s, hs⟩ := Catalog.has_iff.mp known
  obtain rfl := Catalog.name_of_find? hs
  have hfuel := height_lt_depthBound x action s.name (p.forget s.name)
  have halone : Alone x action s s.name (p.forget s.name) _ :=
    alone_changeService wf no hs (Nat.zero_lt_of_lt hfuel) _
  rw [exec_change hs, if_neg fun hc => fresh hc.1] at h
  generalize exec (changeService x action (depthBound x (p.forget s.name)) s s.name)
    (p.forget s.name) = result at h halone
  -- Every way but one leaves a failure of the name on record.
  cases halone with
  | refused =>
    cases h
    exact absurd (by simp [Tally.fail]) hn
  | stopped =>
    cases h
    exact absurd (by simp [Tally.fail]) hn
  | called ready =>
    refine ⟨s, hs, ready, ?_⟩
    rw [exec_invoke] at h
    cases hreply : x.handler.respond (p.forget s.name).calls (x.call action s) with
    | raised text =>
      rw [hreply] at h
      cases h
    | failed message code =>
      rw [hreply] at h
      cases h
      exact absurd (by simp [Tally.fail]) hn
    | done needsReboot notices =>
      rw [hreply] at h
      cases h
      exact ⟨rfl, rfl⟩

end Subscription.Executor
