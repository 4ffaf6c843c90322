import Subscription.Proofs.Reasoning
import Subscription.Resolution.AutoAttach

/-!
The reasoning kit for runs of the executor, with a rule for the loop that stops at the first failure. The
invariant of the rule speaks of the names that are done; `Q` is what has to hold where the loop ends.
-/

namespace Subscription.Executor

@[simp] theorem exec_record (f : Tally → Tally) (p : Progress) :
    exec (record f) p = (.ok (), { p with tally := f p.tally }) := rfl

theorem exec_definition {x : Setting} {n : Text} {s : Service} (h : x.catalog.find? n = some s)
    (p : Progress) : exec (definition x n) p = (.ok s, p) := by
  simp [definition, h]

/-- The rule for a loop that stops at the first failure. -/
theorem firstFailure_rule {step : Text → Run (Option Entry)} {names : List Text}
    {I : List Text → Progress → Prop} {Q : Except Fault (Option Entry) × Progress → Prop}
    (next : ∀ done n rest, names = done ++ n :: rest → ∀ p, I done p →
      (∃ q, exec (step n) p = (.ok none, q) ∧ I (done ++ [n]) q) ∨
        (exec (step n) p).1 ≠ .ok none ∧ Q (exec (step n) p))
    (last : ∀ p, I names p → Q (.ok none, p)) {p : Progress} (first : I [] p) :
    Q (exec (firstFailure step names) p) := by
  suffices H : ∀ rest done, names = done ++ rest → ∀ p, I done p →
      Q (exec (firstFailure step rest) p) from H names [] rfl p first
  intro rest
  induction rest with
  | nil =>
    intro done hnames p hp
    rw [List.append_nil] at hnames
    exact last p (hnames ▸ hp)
  | cons n rest ih =>
    intro done hnames p hp
    simp only [firstFailure, exec_bind]
    rcases next done n rest hnames p hp with ⟨q, hq, hI⟩ | ⟨hne, hQ⟩
    · simp only [hq]
      exact ih (done ++ [n]) (by simp [hnames]) q hI
    · rcases hstep : exec (step n) p with ⟨_ | _ | e, q⟩
      · simpa [hstep] using hQ
      · exact absurd (by rw [hstep]) hne
      · simpa [hstep] using hQ

end Subscription.Executor
