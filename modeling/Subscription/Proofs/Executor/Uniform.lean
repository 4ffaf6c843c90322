import Subscription.Proofs.Executor.Session

/-!
What a session goes by. Two moments are alike when the handler has had the same calls and the same
services are enabled; what the run has on record does not count. From moments that are alike a change
goes the same way and ends in moments that are alike. The record of changed services does decide whether
a turn is passed over, but then it would have come to nothing: so every turn goes as the first one of a
new session would.
-/

namespace Subscription.Executor

variable {α β : Type} {x : Setting} {action : ServiceAction} {who : Text} {p q : Progress}

structure Alike (p q : Progress) : Prop where
  calls : p.calls = q.calls
  enabled : p.enabled = q.enabled

theorem Alike.refl (p : Progress) : Alike p p :=
  ⟨rfl, rfl⟩

def AlikeEnds (a b : Except Fault α × Progress) : Prop :=
  a.1 = b.1 ∧ Alike a.2 b.2

/-- A computation goes the same way from moments that are alike. -/
def Uniform (run : Run α) : Prop :=
  ∀ p q, Alike p q → AlikeEnds (exec run p) (exec run q)

/-! ### What is uniform -/

theorem uniform_pure (a : α) : Uniform (pure a) :=
  fun _ _ h => ⟨rfl, h⟩

theorem uniform_definition (x : Setting) (n : Text) : Uniform (definition x n) := by
  intro p q h
  unfold definition
  split <;> exact ⟨rfl, h⟩

theorem uniform_bind {first : Run α} {second : α → Run β} (hfirst : Uniform first)
    (hsecond : ∀ a, Uniform (second a)) : Uniform (first >>= second) := by
  intro p q h
  obtain ⟨hresult, hends⟩ := hfirst p q h
  rw [exec_bind, exec_bind]
  rcases hp : exec first p with ⟨f | a, p'⟩
  all_goals
    rcases hq : exec first q with ⟨g | b, q'⟩
    all_goals
      rw [hp, hq] at hresult hends
      cases hresult
  · exact ⟨rfl, hends⟩
  · exact hsecond a p' q' hends

theorem uniform_firstFailure {step : Text → Run (Option Entry)} (hone : ∀ n, Uniform (step n))
    (names : List Text) : Uniform (firstFailure step names) := by
  induction names with
  | nil => exact uniform_pure none
  | cons n names ih =>
    refine uniform_bind (hone n) fun failure => ?_
    cases failure with
    | some e => exact uniform_pure (some e)
    | none => exact ih

theorem uniform_invoke (x : Setting) (action : ServiceAction) (s : Service) (who : Text) :
    Uniform (invoke x action s who) := by
  intro p q h
  rw [exec_invoke, exec_invoke, h.calls]
  split
  · exact ⟨rfl, congrArg (· ++ _) h.calls, h.enabled⟩
  · exact ⟨rfl, congrArg (· ++ _) h.calls, h.enabled⟩
  · exact ⟨rfl, congrArg (· ++ _) h.calls, congrArg (applyChange action s.name) h.enabled⟩

theorem uniform_changeAlong {fuel : Nat}
    (hone : ∀ s : Service, x.catalog.find? s.name = some s →
      Uniform (changeService x action fuel s who)) (n : Text) :
    Uniform (changeAlong x action fuel who n) := by
  intro p q h
  cases hs : x.catalog.find? n with
  | none =>
    simp only [changeAlong, definition, hs]
    exact ⟨rfl, h⟩
  | some s =>
    obtain rfl := Catalog.name_of_find? hs
    rw [exec_changeAlong hs, exec_changeAlong hs]
    exact hone s hs _ _ ⟨h.calls, h.enabled⟩

theorem uniform_changeAfter {fuel : Nat}
    (hone : ∀ s : Service, x.catalog.find? s.name = some s →
      Uniform (changeService x action fuel s who)) (s : Service) (others : List Text) :
    Uniform (changeAfter x action fuel s who others) := by
  unfold changeAfter
  split
  · exact uniform_bind (uniform_definition x _) fun _ => uniform_pure _
  · refine uniform_bind (uniform_firstFailure (uniform_changeAlong hone) others) fun failure => ?_
    cases failure with
    | some e => exact uniform_pure (some e)
    | none => exact uniform_invoke x action s who

theorem uniform_changeService (fuel : Nat) :
    ∀ s : Service, x.catalog.find? s.name = some s → Uniform (changeService x action fuel s who) := by
  induction fuel with
  | zero =>
    intro s _ p q h
    cases action <;> exact ⟨rfl, h⟩
  | succ fuel ih =>
    intro s hs p q h
    rw [exec_changeService hs, exec_changeService hs, h.enabled]
    split
    · exact ⟨rfl, h⟩
    · exact uniform_changeAfter ih s _ p q h

/-! ### Turns -/

theorem AlikeEnds.recorded {n : Text} {a b : Except Fault (Option Entry) × Progress}
    (h : AlikeEnds a b) : AlikeEnds (recorded n a) (recorded n b) := by
  obtain ⟨result, p⟩ := a
  obtain ⟨result', q⟩ := b
  obtain ⟨rfl, h⟩ := h
  rcases result with f | _ | e
  all_goals exact ⟨rfl, h.calls, h.enabled⟩

theorem exec_changeService_of_not_pending {s : Service} (hs : x.catalog.find? s.name = some s) {fuel : Nat}
    (hfuel : 0 < fuel) (hdone : pending action p.enabled s.name = false) :
    ∃ m, exec (changeService x action fuel s who) p = (.ok (some (.ofService who m)), p) := by
  obtain ⟨k, rfl⟩ := Nat.exists_eq_succ_of_ne_zero hfuel.ne'
  have hrefused : refusal? x action s p.enabled ≠ none := fun hnone =>
    absurd (hdone.symm.trans (refusal?_eq_none_iff.mp hnone).2) (by decide)
  obtain ⟨m, hm⟩ := Option.ne_none_iff_exists'.mp hrefused
  exact ⟨m, by rw [exec_changeService hs, hm]⟩

/-- The turn of a name goes as the first one of a new session, whatever the session has on record. -/
theorem alike_change_start {n : Text} (known : x.catalog.has n) (p : Progress) :
    AlikeEnds (exec (change x action n) p)
      (exec (change x action n) (start p.calls p.enabled)) := by
  obtain ⟨s, hs⟩ := Catalog.has_iff.mp known
  obtain rfl := Catalog.name_of_find? hs
  have hstart : ¬(s.name ∈ (start p.calls p.enabled).changed ∧
      pending action (start p.calls p.enabled).enabled s.name = false) := by simp [start]
  rw [exec_change hs, exec_change hs, if_neg hstart]
  split
  · next hdone =>
    -- A new session does not know that the service was changed, and refuses to do it again.
    let q := (start p.calls p.enabled).forget s.name
    have hfuel := height_lt_depthBound x action s.name q
    obtain ⟨m, hm⟩ : ∃ m, exec (changeService x action (depthBound x q) s s.name) q =
        (.ok (some (.ofService s.name m)), q) :=
      exec_changeService_of_not_pending hs (Nat.zero_lt_of_lt hfuel) hdone.2
    show AlikeEnds _ (recorded s.name (exec (changeService x action (depthBound x q) s s.name) q))
    rw [hm]
    exact ⟨rfl, rfl, rfl⟩
  · have halike : Alike (p.forget s.name) ((start p.calls p.enabled).forget s.name) := ⟨rfl, rfl⟩
    exact (uniform_changeService _ s hs _ _ halike).recorded

theorem alike_runBatch (b : Partition) (p : Progress) :
    AlikeEnds (exec (runBatch x action b) p) (exec (changeAll x action b.known) p) := by
  rw [exec_runBatch]
  rcases exec (changeAll x action b.known) p with ⟨f | u, q⟩
  · exact ⟨rfl, .refl q⟩
  · exact ⟨rfl, rfl, rfl⟩

end Subscription.Executor
