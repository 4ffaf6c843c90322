import Subscription.Fault

/-!
The reasoning kit for computations that keep a state and can break off. `exec r s` is what the
computation `r` makes of the state `s`: a result, and the state after it. Every construct of the monad
has an equation. `Yields` speaks of what a computation returns, `Throws` of the faults with which it
breaks off, and `Keeps` of what it leaves as it was in either case.
-/

namespace Subscription

variable {σ α β : Type}

/-- What a computation makes of a state. -/
def exec (r : ExceptT Fault (StateM σ) α) (s : σ) : Except Fault α × σ :=
  r.run.run s

@[simp] theorem exec_pure (a : α) (s : σ) :
    exec (pure a : ExceptT Fault (StateM σ) α) s = (.ok a, s) := rfl

@[simp] theorem exec_throw (f : Fault) (s : σ) :
    exec (throw f : ExceptT Fault (StateM σ) α) s = (.error f, s) := rfl

@[simp] theorem exec_get (s : σ) : exec (get : ExceptT Fault (StateM σ) σ) s = (.ok s, s) := rfl

@[simp] theorem exec_modify (f : σ → σ) (s : σ) :
    exec (modify f : ExceptT Fault (StateM σ) PUnit) s = (.ok (), f s) := rfl

@[simp] theorem exec_liftExcept (e : Except Fault α) (s : σ) :
    exec (liftM e : ExceptT Fault (StateM σ) α) s = (e, s) := by
  cases e <;> rfl

theorem exec_lift (x : StateM σ α) (s : σ) :
    exec (liftM x : ExceptT Fault (StateM σ) α) s = (.ok (x.run s).1, (x.run s).2) := rfl

theorem exec_bind (r : ExceptT Fault (StateM σ) α) (f : α → ExceptT Fault (StateM σ) β) (s : σ) :
    exec (r >>= f) s =
      match exec r s with
      | (.ok a, t) => exec (f a) t
      | (.error e, t) => (.error e, t) := by
  show (r.run >>= ExceptT.bindCont fun a => (f a)).run s = _
  rw [StateT.run_bind]
  rcases h : exec r s with ⟨_ | _, t⟩
  all_goals
    simp only [exec] at h
    rw [h]
    rfl

/-- One computation after another returns something only if both do. -/
theorem exec_bind_eq_ok {r : ExceptT Fault (StateM σ) α} {f : α → ExceptT Fault (StateM σ) β}
    {b : β} {s u : σ} :
    exec (r >>= f) s = (.ok b, u) ↔ ∃ a t, exec r s = (.ok a, t) ∧ exec (f a) t = (.ok b, u) := by
  rw [exec_bind]
  rcases exec r s with ⟨e | a, t⟩ <;> simp [and_assoc]

/-- A computation that breaks off can be gone on with. -/
theorem exec_tryCatch (r : ExceptT Fault (StateM σ) α) (handle : Fault → ExceptT Fault (StateM σ) α)
    (s : σ) : exec (tryCatch r handle) s =
      match exec r s with
      | (.ok a, t) => (.ok a, t)
      | (.error f, t) => exec (handle f) t := by
  show (ExceptT.tryCatch r handle).run.run s = _
  rw [ExceptT.tryCatch, ExceptT.run_mk, StateT.run_bind]
  rcases h : exec r s with ⟨_ | _, t⟩
  all_goals
    have hrun : StateT.run r s = _ := h
    rw [hrun]
    rfl

theorem exec_ite {c : Prop} [Decidable c] (r r' : ExceptT Fault (StateM σ) α) (s : σ) :
    exec (if c then r else r') s = if c then exec r s else exec r' s := by
  split <;> rfl

/-! ### What a computation returns -/

/-- Whatever a computation returns has a property. -/
def Yields (r : ExceptT Fault (StateM σ) α) (P : α → Prop) : Prop :=
  ∀ s a t, exec r s = (.ok a, t) → P a

section Yields

variable {r : ExceptT Fault (StateM σ) α} {f : α → ExceptT Fault (StateM σ) β} {P : α → Prop}
  {Q : β → Prop}

theorem yields_pure {a : α} (h : P a) : Yields (pure a : ExceptT Fault (StateM σ) α) P := by
  intro s b t hexec
  rw [exec_pure, Prod.mk.injEq, Except.ok.injEq] at hexec
  exact hexec.1 ▸ h

theorem yields_bind (hr : Yields r P) (hf : ∀ a, P a → Yields (f a) Q) : Yields (r >>= f) Q := by
  intro s b t hexec
  rw [exec_bind] at hexec
  rcases h : exec r s with ⟨_ | a, u⟩
  · rw [h] at hexec
    cases hexec
  · rw [h] at hexec
    exact hf a (hr s a u h) u b t hexec

theorem yields_bind' (hf : ∀ a, Yields (f a) Q) : Yields (r >>= f) Q :=
  yields_bind (P := fun _ => True) (fun _ _ _ _ => trivial) fun a _ => hf a

end Yields

/-! ### How a computation breaks off -/

/-- A computation breaks off with certain faults only. -/
def Throws (r : ExceptT Fault (StateM σ) α) (F : Fault → Prop) : Prop :=
  ∀ s f t, exec r s = (.error f, t) → F f

section Throws

variable {r : ExceptT Fault (StateM σ) α} {f : α → ExceptT Fault (StateM σ) β} {F : Fault → Prop}

theorem throws_pure (a : α) : Throws (pure a : ExceptT Fault (StateM σ) α) F := by
  intro s e t hexec
  cases hexec

theorem throws_bind (hr : Throws r F) (hf : ∀ a, Throws (f a) F) : Throws (r >>= f) F := by
  intro s e t hexec
  rw [exec_bind] at hexec
  rcases h : exec r s with ⟨e' | a, u⟩
  · rw [h] at hexec
    cases hexec
    exact hr s e t h
  · rw [h] at hexec
    exact hf a u e t hexec

theorem exec_of_throws (h : Throws r F) (hF : ∀ e, ¬F e) (s : σ) :
    ∃ a t, exec r s = (.ok a, t) := by
  rcases hr : exec r s with ⟨e | a, t⟩
  · exact absurd (h s e t hr) (hF e)
  · exact ⟨a, t, rfl⟩

end Throws

/-! ### What a computation leaves as it was -/

/-- Whether or not it comes to its end, a computation leaves a part of the state as it was. -/
def Keeps {ν : Type} (view : σ → ν) (r : ExceptT Fault (StateM σ) α) : Prop :=
  ∀ s, view (exec r s).2 = view s

section Keeps

variable {ν : Type} {view : σ → ν} {r : ExceptT Fault (StateM σ) α}
  {f : α → ExceptT Fault (StateM σ) β}

theorem keeps_lift {x : StateM σ α} (h : ∀ s, view (x.run s).2 = view s) :
    Keeps view (liftM x : ExceptT Fault (StateM σ) α) :=
  h

theorem keeps_except (e : Except Fault α) :
    Keeps view (ExceptT.mk (pure e) : ExceptT Fault (StateM σ) α) :=
  fun _ => rfl

theorem keeps_pure (a : α) : Keeps view (pure a : ExceptT Fault (StateM σ) α) :=
  fun _ => rfl

theorem keeps_bind (hr : Keeps view r) (hf : ∀ a, Keeps view (f a)) : Keeps view (r >>= f) := by
  intro s
  rw [exec_bind, ← hr s]
  rcases exec r s with ⟨_ | a, t⟩
  · rfl
  · exact hf a t

theorem keeps_bind_of_yields {P : α → Prop} (hr : Keeps view r) (hP : Yields r P)
    (hf : ∀ a, P a → Keeps view (f a)) : Keeps view (r >>= f) := by
  intro s
  rw [exec_bind, ← hr s]
  rcases h : exec r s with ⟨_ | a, t⟩
  · rfl
  · exact hf a (hP s a t h) t

end Keeps

end Subscription
