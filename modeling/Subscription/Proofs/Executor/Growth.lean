import Subscription.Proofs.Executor.Session

/-!
What the executor adds, whatever is enabled to begin with, repetitions included. What holds of every part
of a change, its warnings, refusals and calls, holds of the change, and of a whole session when it can be
followed from one to the next. So calls and outcomes are only ever added; and a change that succeeds has
ended with a call that was carried out.
-/

namespace Subscription

def Handler.CarriedOut (h : Handler) (past new : List Call) : Prop :=
  ∃ before call after, new = before ++ call :: after ∧
    ∃ needsReboot notices, h.respond (past ++ before) call = .done needsReboot notices

theorem Handler.not_carriedOut_nil {h : Handler} (past : List Call) : ¬h.CarriedOut past [] := by
  rintro ⟨before, call, after, hnil, -⟩
  simp at hnil

theorem Handler.CarriedOut.append {h : Handler} {past new : List Call} (hdone : h.CarriedOut past new)
    (more : List Call) : h.CarriedOut past (new ++ more) := by
  obtain ⟨before, call, after, rfl, hreply⟩ := hdone
  exact ⟨before, call, after ++ more, by simp, hreply⟩

namespace Executor

variable {α β : Type} {x : Setting} {action : ServiceAction} {who n : Text} {names : List Text}
  {p q r : Progress}

/-! ### Relations between the progress before and after -/

/-- A relation that can be followed from one computation to the next. -/
structure Cumulative (R : Progress → Progress → Prop) : Prop where
  refl : ∀ p, R p p
  trans : ∀ {p q r}, R p q → R q r → R p r

/-- Whether or not it comes to its end, a computation leads to a progress in some relation. -/
def KeepsTo (R : Progress → Progress → Prop) (run : Run α) : Prop :=
  ∀ p, R p (exec run p).2

section KeepsTo

variable {R : Progress → Progress → Prop} (hR : Cumulative R)
include hR

theorem keepsTo_bind {first : Run α} {second : α → Run β} (hfirst : KeepsTo R first)
    (hsecond : ∀ a, KeepsTo R (second a)) : KeepsTo R (first >>= second) := by
  intro p
  have hp := hfirst p
  rw [exec_bind]
  rcases hr : exec first p with ⟨_ | a, q⟩
  · rw [hr] at hp
    exact hp
  · rw [hr] at hp
    exact hR.trans hp (hsecond a q)

theorem keepsTo_firstFailure {step : Text → Run (Option Entry)}
    (hone : ∀ n ∈ names, KeepsTo R (step n)) : KeepsTo R (firstFailure step names) := by
  induction names with
  | nil => exact hR.refl
  | cons n names ih =>
    refine keepsTo_bind hR (hone n List.mem_cons_self) fun failure => ?_
    cases failure with
    | some e => exact hR.refl
    | none => exact ih fun m hm => hone m (List.mem_cons_of_mem n hm)

end KeepsTo

/-! ### The rule for changes -/

/-- A relation between where a change starts and how it ends that is made up of the parts of the
change. -/
structure Compositional (x : Setting) (action : ServiceAction) (who : Text)
    (S : Progress → Except Fault (Option Entry) × Progress → Prop) : Prop where
  nothing : ∀ p, S p (.ok none, p)
  trans : ∀ {p q result}, S p (.ok none, q) → S q result → S p result
  refused : ∀ p m, S p (.ok (some (.ofService who m)), p)
  broken : ∀ p f, S p (.error f, p)
  warned : ∀ p title, S p
    (.ok none, { p with tally := p.tally.addWarning (.ofService who (alongMessage action title)) })
  invoked : ∀ s p, S p (exec (invoke x action s who) p)

namespace Compositional

variable {S : Progress → Except Fault (Option Entry) × Progress → Prop}

theorem firstFailure (h : Compositional x action who S) {step : Text → Run (Option Entry)}
    (hone : ∀ n ∈ names, ∀ p, S p (exec (step n) p)) (p : Progress) :
    S p (exec (firstFailure step names) p) := by
  induction names generalizing p with
  | nil => exact h.nothing p
  | cons n names ih =>
    have hstep := hone n List.mem_cons_self p
    rw [Executor.firstFailure, exec_bind]
    rcases hr : exec (step n) p with ⟨f | _ | e, q⟩
    all_goals rw [hr] at hstep
    · exact hstep
    · exact h.trans hstep (ih (fun m hm => hone m (List.mem_cons_of_mem n hm)) q)
    · exact hstep

theorem changeAlong (h : Compositional x action who S) {fuel : Nat}
    (hone : ∀ s : Service, x.catalog.find? s.name = some s →
      ∀ p, S p (exec (changeService x action fuel s who) p)) (n : Text) (p : Progress) :
    S p (exec (changeAlong x action fuel who n) p) := by
  rw [Executor.changeAlong, definition]
  cases hs : x.catalog.find? n with
  | none => exact h.broken p _
  | some s =>
    obtain rfl := Catalog.name_of_find? hs
    exact h.trans (h.warned p s.title) (hone s hs _)

/-- What holds of the parts of a change holds of the change. -/
theorem changeService (h : Compositional x action who S) (fuel : Nat) :
    ∀ s : Service, x.catalog.find? s.name = some s →
      ∀ p, S p (exec (changeService x action fuel s who) p) := by
  induction fuel with
  | zero =>
    intro s _ p
    cases action <;> exact h.broken p _
  | succ fuel ih =>
    intro s hs p
    rw [exec_changeService hs]
    split
    · exact h.refused p _
    · unfold changeAfter
      split
      · next first _ _ =>
        rw [definition]
        cases x.catalog.find? first with
        | none => exact h.broken p _
        | some other => exact h.refused p _
      · have hothers : S p (exec (Executor.firstFailure (Executor.changeAlong x action fuel who)
            (inTheWay x action s p.enabled)) p) := h.firstFailure (fun n _ => h.changeAlong ih n) p
        rw [exec_bind]
        rcases hr : exec (Executor.firstFailure (Executor.changeAlong x action fuel who)
          (inTheWay x action s p.enabled)) p with ⟨f | _ | e, q⟩
        all_goals rw [hr] at hothers
        · exact hothers
        · exact h.trans hothers (h.invoked s q)
        · exact hothers

end Compositional

/-- What every warning and every call keep to, changes keep to. -/
theorem Cumulative.compositional {R : Progress → Progress → Prop} (hR : Cumulative R)
    (warned : ∀ p title,
      R p { p with tally := p.tally.addWarning (.ofService who (alongMessage action title)) })
    (invoked : ∀ s : Service, KeepsTo R (invoke x action s who)) :
    Compositional x action who fun p result => R p result.2 where
  nothing := hR.refl
  trans := hR.trans
  refused p _ := hR.refl p
  broken p _ := hR.refl p
  warned := warned
  invoked := invoked

/-! ### Relations that hold across sessions -/

/-- Between two moments something was put on record: outcomes at most, and no calls were made. -/
structure Noted (p q : Progress) : Prop where
  calls : q.calls = p.calls
  outcomes : p.tally.outcomes <+: q.tally.outcomes
  warnings : q.tally.warnings = p.tally.warnings
  needsReboot : q.tally.needsReboot = p.tally.needsReboot

/-- A relation that every single thing done in a session keeps to. -/
structure Pervasive (x : Setting) (action : ServiceAction) (R : Progress → Progress → Prop) : Prop
    extends Cumulative R where
  noted : ∀ {p q}, Noted p q → R p q
  warned : ∀ who p title,
    R p { p with tally := p.tally.addWarning (.ofService who (alongMessage action title)) }
  invoked : ∀ who s, KeepsTo R (invoke x action s who)

namespace Pervasive

variable {R : Progress → Progress → Prop}

theorem compositional (h : Pervasive x action R) (who : Text) :
    Compositional x action who fun p result => R p result.2 :=
  h.toCumulative.compositional (h.warned who) (h.invoked who)

theorem recorded (h : Pervasive x action R) {result : Except Fault (Option Entry) × Progress}
    (hresult : R p result.2) : R p (recorded n result).2 := by
  rcases result with ⟨_ | _ | _, q⟩
  · exact hresult
  all_goals exact h.trans hresult (h.noted ⟨rfl, List.prefix_append _ _, rfl, rfl⟩)

theorem change (h : Pervasive x action R) (known : x.catalog.has n) :
    KeepsTo R (change x action n) := by
  obtain ⟨s, hs⟩ := Catalog.has_iff.mp known
  intro p
  rw [exec_change hs]
  split
  · exact h.noted ⟨rfl, List.prefix_append _ _, rfl, rfl⟩
  · obtain rfl := Catalog.name_of_find? hs
    have hforget : R p (p.forget s.name) := h.noted ⟨rfl, List.prefix_refl _, rfl, rfl⟩
    exact h.recorded (h.trans hforget ((h.compositional s.name).changeService _ s hs _))

theorem changeAll (h : Pervasive x action R) (known : ∀ n ∈ names, x.catalog.has n) :
    KeepsTo R (changeAll x action names) := by
  induction names with
  | nil => exact h.refl
  | cons n names ih =>
    exact keepsTo_bind h.toCumulative (h.change (known n List.mem_cons_self)) fun _ =>
      ih fun m hm => known m (List.mem_cons_of_mem n hm)

theorem enableUnsettled (h : Pervasive x .enable R) (settled : List Text)
    (known : ∀ n ∈ names, x.catalog.has n) :
    KeepsTo R (AutoAttach.enableUnsettled settled x names) := by
  induction names with
  | nil => exact h.refl
  | cons n names ih =>
    intro p
    rw [exec_enableUnsettled]
    refine keepsTo_bind h.toCumulative (fun p => ?_)
      (fun _ => ih fun m hm => known m (List.mem_cons_of_mem n hm)) p
    rw [enableUnlessSettled, exec_ite]
    split
    · exact h.noted ⟨rfl, List.prefix_append _ _, rfl, rfl⟩
    · exact h.change (known n List.mem_cons_self) p

theorem enableDefaults (h : Pervasive x .enable R) : KeepsTo R (enableDefaults x) :=
  h.changeAll fun _ hn => has_of_mem_defaults hn

end Pervasive

/-! ### Calls and outcomes are added -/

structure Grows (p q : Progress) : Prop where
  calls : p.calls <+: q.calls
  outcomes : p.tally.outcomes <+: q.tally.outcomes

theorem cumulative_grows : Cumulative Grows where
  refl _ := ⟨List.prefix_refl _, List.prefix_refl _⟩
  trans h h' := ⟨h.calls.trans h'.calls, h.outcomes.trans h'.outcomes⟩

theorem pervasive_grows : Pervasive x action Grows where
  toCumulative := cumulative_grows
  noted h := ⟨h.calls ▸ List.prefix_refl _, h.outcomes⟩
  warned _ _ _ := ⟨List.prefix_refl _, List.prefix_refl _⟩
  invoked who s p := by
    rw [exec_invoke]
    split <;> exact ⟨List.prefix_append _ _, List.prefix_refl _⟩

theorem grows_changeAlong (fuel : Nat) (others : List Text) :
    KeepsTo Grows (firstFailure (changeAlong x action fuel who) others) :=
  have hgrows : Compositional x action who fun p result => Grows p result.2 :=
    pervasive_grows.compositional who
  hgrows.firstFailure fun n _ => hgrows.changeAlong (hgrows.changeService fuel) n

/-! ### Success takes a call -/

theorem carriedOut_of_invoke {s : Service} (h : exec (invoke x action s who) p = (.ok none, q)) :
    ∃ call, q.calls = p.calls ++ [call] ∧
      ∃ needsReboot notices, x.handler.respond p.calls call = .done needsReboot notices := by
  rw [exec_invoke] at h
  cases hreply : x.handler.respond p.calls (x.call action s) with
  | raised | failed =>
    rw [hreply] at h
    cases h
  | done needsReboot notices =>
    rw [hreply] at h
    cases h
    exact ⟨_, rfl, needsReboot, notices, hreply⟩

/-- A service is changed with success by a call that is carried out, the last one. -/
theorem carriedOut_of_changeService {s : Service} (hs : x.catalog.find? s.name = some s) {fuel : Nat}
    (h : exec (changeService x action fuel s who) p = (.ok none, q)) :
    ∃ new, q.calls = p.calls ++ new ∧ x.handler.CarriedOut p.calls new := by
  cases fuel with
  | zero => cases action <;> cases h
  | succ fuel =>
    rw [exec_changeService hs] at h
    split at h
    · cases h
    · unfold changeAfter at h
      split at h
      · next first _ _ =>
        rw [exec_bind] at h
        rcases hd : exec (definition x first) p with ⟨_ | _, r⟩ <;> simp [hd] at h
      · have hgrows : Grows p (exec (firstFailure (changeAlong x action fuel who) _) p).2 :=
          grows_changeAlong fuel (inTheWay x action s p.enabled) p
        rw [exec_bind] at h
        rcases hr : exec (firstFailure (changeAlong x action fuel who)
          (inTheWay x action s p.enabled)) p with ⟨f | _ | e, r⟩
        · rw [hr] at h
          cases h
        · -- What had to go first made calls of its own; the one for the service comes after them.
          rw [hr] at h hgrows
          obtain ⟨call, hcalls, hreply⟩ := carriedOut_of_invoke h
          obtain ⟨new, hnew⟩ := hgrows.calls
          refine ⟨new ++ [call], ?_, new, call, [], rfl, ?_⟩
          · rw [hcalls, ← hnew, List.append_assoc]
          · rw [hnew]
            exact hreply
        · rw [hr] at h
          cases h

/-- In a turn that starts with nothing on record, a name fails or a call is carried out. -/
theorem carriedOut_of_change (known : x.catalog.has n) (hnew : n ∉ p.changed)
    (h : exec (change x action n) p = (.ok (), q)) :
    (n, .failure) ∈ q.tally.outcomes ∨
      ∃ new, q.calls = p.calls ++ new ∧ x.handler.CarriedOut p.calls new := by
  obtain ⟨s, hs⟩ := Catalog.has_iff.mp known
  rw [exec_change hs, if_neg fun hc => hnew hc.1] at h
  obtain rfl := Catalog.name_of_find? hs
  rcases hr : exec (changeService x action (depthBound x (p.forget s.name)) s s.name)
    (p.forget s.name) with ⟨f | _ | e, r⟩
  · rw [hr] at h
    cases h
  · rw [hr] at h
    cases h
    obtain ⟨new, hcalls, hdone⟩ := carriedOut_of_changeService hs hr
    exact Or.inr ⟨new, hcalls, hdone⟩
  · rw [hr] at h
    cases h
    exact Or.inl (by simp [Tally.fail])

theorem carriedOut_of_changeAll (known : ∀ m ∈ n :: names, x.catalog.has m) (hnew : n ∉ p.changed)
    (h : exec (changeAll x action (n :: names)) p = (.ok (), q)) :
    (n, .failure) ∈ q.tally.outcomes ∨
      ∃ new, q.calls = p.calls ++ new ∧ x.handler.CarriedOut p.calls new := by
  rw [changeAll, exec_bind] at h
  rcases hr : exec (change x action n) p with ⟨f | _, r⟩
  · rw [hr] at h
    cases h
  · -- The first turn decides: what it has put on record is still there after the others.
    rw [hr] at h
    have hgrows : Grows r q := by
      rw [← show (exec (changeAll x action names) r).2 = q from congrArg Prod.snd h]
      exact pervasive_grows.changeAll (fun m hm => known m (List.mem_cons_of_mem n hm)) r
    rcases carriedOut_of_change (known n List.mem_cons_self) hnew hr with hfailed | ⟨new, hcalls, hdone⟩
    · exact Or.inl (hgrows.outcomes.subset hfailed)
    · obtain ⟨more, hmore⟩ := hgrows.calls
      refine Or.inr ⟨new ++ more, ?_, hdone.append more⟩
      rw [← hmore, hcalls, List.append_assoc]

end Executor

end Subscription
